import UtSystems.Filesys.Openers

/-!
# A directory as a finite map

A directory is created and opened, and then names are added, removed and looked up in any
order. With memory to spare it answers as a finite map from names to sectors of bounded
size does, no name is in two entries, and one pass of `dir_readdir` lists the names.
-/

namespace UtSystems.Filesys.DirectoryMap

open Lib.Bytes Lib.Effects Filesys.Volume Filesys.InodeData Filesys.FreeMap Filesys.Inode
open Filesys.Directory Filesys.Ownership Filesys.Consistency Filesys.OpenInodes Filesys.OpenFiles
open Filesys.Creation Filesys.Entries Filesys.NamedInodes Filesys.NamedFiles Filesys.Format
open Filesys.SectorOwners
open Filesys.Openers (createInode create_inode_returns)

set_option autoImplicit false

section Maps

/-- Names to the sectors of their inodes. -/
abbrev NameMap := Name → Option Nat

def domain (map : NameMap) : Set Name := { name | map name ≠ none }

inductive Call where
  | add (name : Name) (inodeSector : Nat)
  | remove (name : Name)
  | lookup (name : Name)

inductive Answer where
  | success (result : Bool)
  | sector (found : Option Nat)

def Call.name : Call → Name
  | .add name _ | .remove name | .lookup name => name

open Classical in
/-- A map with room for `capacity` names. -/
noncomputable def NameMap.perform (capacity : Nat) (map : NameMap) : Call → Answer × NameMap
  | .add name inodeSector =>
      if ValidName name ∧ map name = none ∧ (domain map).ncard < capacity then
        (.success true, Function.update map name (some inodeSector))
      else (.success false, map)
  | .remove name =>
      if map name ≠ none then (.success true, Function.update map name none)
      else (.success false, map)
  | .lookup name => (.sector (map name), map)

end Maps

/-- The sector that a name leads to, through an inode that is closed again. -/
def lookupSector (dir : Dir) (name : Name) : FsM (Option Nat) := do
  match ← dirLookup dir (some name) with
  | none => return none
  | some inode =>
      let sector := (← inodeAt inode).sector
      inodeClose (some inode)
      return some sector

def Call.perform (dir : Dir) : Call → FsM Answer
  | .add name inodeSector => return .success (← dirAdd dir name inodeSector)
  | .remove name => return .success (← dirRemove dir name)
  | .lookup name => return .sector (← lookupSector dir name)

/-- Calls of `dir_readdir` until it returns false. -/
def readAll : Nat → Dir → FsM (List Name)
  | 0, _ => return []
  | rounds + 1, dir => do
      match ← dirReaddir dir with
      | (none, _) => return []
      | (some name, dir) => return name :: (← readAll rounds dir)

/-- A directory in a sector from the free map, and opened. -/
def makeDirectory (entryCnt : Nat) : FsM (Option (Nat × Dir)) := do
  match ← freeMapAllocate 1 with
  | none => return none
  | some sector =>
      if ← dirCreate sector entryCnt then
        match ← dirOpen (← inodeOpen sector) with
        | some dir => return some (sector, dir)
        | none => return none
      else return none

/-- The names that the entries of a directory hold. -/
structure Represents (place : Place) (disk : Disk) (map : NameMap) : Prop where
  mapped : ∀ name sector, map name = some sector ↔
    ∃ index, Names place disk index sector ∧ name = (entryAt place disk index).string
  unique : ∀ first second, first < place.entries → second < place.entries →
    (entryAt place disk first).inUse ≠ 0 → (entryAt place disk second).inUse ≠ 0 →
    (entryAt place disk first).string = (entryAt place disk second).string → first = second
  short : ∀ index < place.entries, (entryAt place disk index).inUse ≠ 0 →
    (entryAt place disk index).string.length ≤ nameMax

section Representing

variable {place : Place} {disk other : Disk} {map : NameMap}

theorem represents_congr (represents : Represents place disk map)
    (same : ∀ index < place.entries, entryAt place other index = entryAt place disk index) :
    Represents place other map where
  mapped := by
    intro name sector
    rw [represents.mapped]
    constructor
    · rintro ⟨index, names, string⟩
      exact ⟨index, (names_congr same).mpr names, by rw [same index names.1]; exact string⟩
    · rintro ⟨index, names, string⟩
      exact ⟨index, (names_congr same).mp names, by rw [← same index names.1]; exact string⟩
  unique := by
    intro first second firstIn secondIn
    rw [same first firstIn, same second secondIn]
    exact represents.unique first second firstIn secondIn
  short := by
    intro index inside
    rw [same index inside]
    exact represents.short index inside

theorem mapped_none (represents : Represents place disk map) (name : Name) :
    map name = none ↔ ∀ index < place.entries, ¬Matches place disk name index := by
  constructor
  · rintro none_ index inside ⟨inUse, string⟩
    have here := (represents.mapped name _).mpr ⟨index, ⟨inside, inUse, rfl⟩, string⟩
    rw [none_] at here
    cases here
  · intro absent
    cases here : map name with
    | none => rfl
    | some sector =>
        obtain ⟨index, ⟨inside, inUse, _⟩, string⟩ := (represents.mapped name sector).mp here
        exact absurd ⟨inUse, string⟩ (absent index inside)

theorem mapped_some (represents : Represents place disk map) {name : Name} {index : Nat}
    (inside : index < place.entries) (matches_ : Matches place disk name index) :
    map name = some (entryAt place disk index).inodeSector.toNat :=
  (represents.mapped name _).mpr ⟨index, ⟨inside, matches_.1, rfl⟩, matches_.2⟩

/-- The entries in use. -/
def usedEntries (place : Place) (disk : Disk) : Set Nat :=
  { index | index < place.entries ∧ (entryAt place disk index).inUse ≠ 0 }

theorem domain_ncard (represents : Represents place disk map) :
    (domain map).ncard = (usedEntries place disk).ncard := by
  have image : domain map =
      Set.image (fun index => (entryAt place disk index).string) (usedEntries place disk) := by
    ext name
    constructor
    · intro inside
      obtain ⟨sector, here⟩ := Option.ne_none_iff_exists'.mp inside
      obtain ⟨index, ⟨bound, inUse, _⟩, string⟩ := (represents.mapped name sector).mp here
      exact ⟨index, ⟨bound, inUse⟩, string.symm⟩
    · rintro ⟨index, ⟨bound, inUse⟩, rfl⟩
      have here := mapped_some represents bound ⟨inUse, rfl⟩
      intro none_
      rw [none_] at here
      cases here
  rw [image]
  apply Set.InjOn.ncard_image
  rintro first ⟨firstIn, firstUsed⟩ second ⟨secondIn, secondUsed⟩ same
  exact represents.unique first second firstIn secondIn firstUsed secondUsed same

theorem not_full_iff (represents : Represents place disk map) :
    (domain map).ncard < place.entries ↔
      ∃ index < place.entries, (entryAt place disk index).inUse = 0 := by
  have within : usedEntries place disk ⊆ (Finset.range place.entries : Set Nat) :=
    fun index used => Finset.mem_coe.mpr (Finset.mem_range.mpr used.1)
  have total : (Finset.range place.entries : Set Nat).ncard = place.entries := by
    rw [Set.ncard_coe_finset, Finset.card_range]
  rw [domain_ncard represents]
  constructor
  · intro fewer
    by_contra allUsed
    have all : usedEntries place disk = (Finset.range place.entries : Set Nat) := by
      apply Set.Subset.antisymm within
      intro index member
      have inside := Finset.mem_range.mp (Finset.mem_coe.mp member)
      exact ⟨inside, fun free => allUsed ⟨index, inside, free⟩⟩
    rw [all, total] at fewer
    exact absurd fewer (Nat.lt_irrefl _)
  · rintro ⟨index, inside, free⟩
    conv_rhs => rw [← total]
    apply Set.ncard_lt_ncard ⟨within, fun covers => ?_⟩ (Finset.finite_toSet _)
    exact (covers (Finset.mem_coe.mpr (Finset.mem_range.mpr inside))).2 free

/-- A name goes into an entry that was free. -/
theorem represents_add (represents : Represents place disk map) {index sector : Nat} {name : Name}
    (inside : index < place.entries) (free : (entryAt place disk index).inUse = 0)
    (absent : map name = none) (inUse : (entryAt place other index).inUse ≠ 0)
    (string : (entryAt place other index).string = name)
    (itsSector : (entryAt place other index).inodeSector.toNat = sector)
    (valid : ValidName name)
    (others : ∀ j ≠ index, entryAt place other j = entryAt place disk j) :
    Represents place other (Function.update map name (some sector)) where
  mapped := by
    intro candidate owner
    by_cases same : candidate = name
    · subst same
      rw [Function.update_self]
      constructor
      · intro eq
        cases eq
        exact ⟨index, ⟨inside, inUse, itsSector⟩, string.symm⟩
      · rintro ⟨j, ⟨bound, used, owns⟩, its⟩
        by_cases here : j = index
        · rw [here, itsSector] at owns
          rw [owns]
        · rw [others j here] at used its
          exact absurd ⟨used, its⟩ ((mapped_none represents candidate).mp absent j bound)
    · rw [Function.update_of_ne same, represents.mapped]
      constructor
      · rintro ⟨j, ⟨bound, used, owns⟩, its⟩
        have different : j ≠ index := by
          rintro rfl
          exact used free
        refine ⟨j, ⟨bound, ?_, ?_⟩, ?_⟩
        · rw [others j different]
          exact used
        · rw [others j different]
          exact owns
        · rw [others j different]
          exact its
      · rintro ⟨j, ⟨bound, used, owns⟩, its⟩
        have different : j ≠ index := by
          rintro rfl
          exact same (its.trans string)
        rw [others j different] at used owns its
        exact ⟨j, ⟨bound, used, owns⟩, its⟩
  unique := by
    have apart : ∀ j, j < place.entries → j ≠ index → (entryAt place other j).inUse ≠ 0 →
        (entryAt place other j).string ≠ name := by
      intro j bound different used its
      rw [others j different] at used its
      exact (mapped_none represents name).mp absent j bound ⟨used, its.symm⟩
    intro first second firstIn secondIn firstUsed secondUsed same
    by_cases one : first = index
    · by_cases two : second = index
      · rw [one, two]
      · rw [one, string] at same
        exact absurd same.symm (apart second secondIn two secondUsed)
    · by_cases two : second = index
      · rw [two, string] at same
        exact absurd same (apart first firstIn one firstUsed)
      · rw [others first one] at firstUsed same
        rw [others second two] at secondUsed same
        exact represents.unique first second firstIn secondIn firstUsed secondUsed same
  short := by
    intro j bound used
    by_cases here : j = index
    · rw [here, string]
      exact valid.2
    · rw [others j here] at used ⊢
      exact represents.short j bound used

/-- The entry of a name is cleared. -/
theorem represents_remove (represents : Represents place disk map) {index : Nat} {name : Name}
    (inside : index < place.entries) (matches_ : Matches place disk name index)
    (cleared : (entryAt place other index).inUse = 0)
    (others : ∀ j < place.entries, j ≠ index → entryAt place other j = entryAt place disk j) :
    Represents place other (Function.update map name none) where
  mapped := by
    have before : ∀ j < place.entries, (entryAt place other j).inUse ≠ 0 → j ≠ index := by
      rintro j _ used rfl
      exact used cleared
    intro candidate owner
    by_cases same : candidate = name
    · subst same
      rw [Function.update_self]
      refine ⟨nofun, ?_⟩
      rintro ⟨j, ⟨bound, used, _⟩, its⟩
      have different := before j bound used
      rw [others j bound different] at used its
      exact absurd (represents.unique j index bound inside used matches_.1
        (its.symm.trans matches_.2)) different
    · rw [Function.update_of_ne same, represents.mapped]
      constructor
      · rintro ⟨j, ⟨bound, used, owns⟩, its⟩
        have different : j ≠ index := by
          rintro rfl
          exact same (its.trans matches_.2.symm)
        refine ⟨j, ⟨bound, ?_, ?_⟩, ?_⟩
        · rw [others j bound different]
          exact used
        · rw [others j bound different]
          exact owns
        · rw [others j bound different]
          exact its
      · rintro ⟨j, ⟨bound, used, owns⟩, its⟩
        have different := before j bound used
        rw [others j bound different] at used owns its
        exact ⟨j, ⟨bound, used, owns⟩, its⟩
  unique := by
    intro first second firstIn secondIn firstUsed secondUsed same
    have one : first ≠ index := by
      rintro rfl
      exact firstUsed cleared
    have two : second ≠ index := by
      rintro rfl
      exact secondUsed cleared
    rw [others first firstIn one] at firstUsed same
    rw [others second secondIn two] at secondUsed same
    exact represents.unique first second firstIn secondIn firstUsed secondUsed same
  short := by
    intro j bound used
    have different : j ≠ index := by
      rintro rfl
      exact used cleared
    rw [others j bound different] at used ⊢
    exact represents.short j bound used

end Representing

structure Session where
  fs : FileSys
  sector : Nat
  dir : Dir
  map : NameMap
  -- the sectors of inodes that have been made and not added yet
  spare : Set Nat

/-- Names are strings, and the sectors added are those of inodes made for it. -/
def Call.Allowed (spare : Set Nat) : Call → Prop
  | .add name inodeSector => (0 : Byte) ∉ name ∧ inodeSector ∈ spare
  | .remove name | .lookup name => (0 : Byte) ∉ name

def Call.spareAfter (spare : Set Nat) : Call → Answer → Set Nat
  | .add _ inodeSector, .success true => spare \ {inodeSector}
  | _, _ => spare

/-- Sessions with a directory for `entryCnt` entries and memory to spare. -/
inductive Reachable (entryCnt : Nat) : Session → Prop where
  | start {client : Client} {sector : Nat} {dir : Dir} {fs : FileSys}
      (before : SectorOwners.Reachable client) (plenty : Plenty client.fs)
      (made : makeDirectory entryCnt client.fs = .ok (some (sector, dir)) fs) :
      Reachable entryCnt ⟨fs, sector, dir, fun _ => none, ∅⟩
  | create {session : Session} {length : Word} {result : Option Nat} {next : FileSys}
      (before : Reachable entryCnt session) (nonneg : 0 ≤ length.toInt)
      (ran : createInode length session.fs = .ok result next) :
      Reachable entryCnt { session with
        fs := next
        spare := { sector | result = some sector } ∪ session.spare }
  | step {session : Session} {call : Call} {answer : Answer} {next : FileSys}
      (before : Reachable entryCnt session) (allowed : call.Allowed session.spare)
      (ran : call.perform session.dir session.fs = .ok answer next) :
      Reachable entryCnt { session with
        fs := next
        map := (session.map.perform entryCnt call).2
        spare := call.spareAfter session.spare answer }

/-- What holds between the calls. -/
structure InStep (place : Place) (fs : FileSys) (dir : Dir) (map : NameMap) (spare : Set Nat) :
    Prop where
  plenty : Plenty fs
  order : ∃ inodes, DirOpened place inodes fs (fun _ => 0) dir ∧
    ∀ sector ∈ spare, Nameable place inodes fs sector
  represents : Represents place fs.disk map

section Making

variable {fs : FileSys} {inodes : Set Nat}

theorem directory_length {entryCnt : Nat} (fits : entryCnt * entrySize < 2 ^ 32)
    (nonneg : 0 ≤ (BitVec.ofNat 32 (entryCnt * entrySize)).toInt) :
    (BitVec.ofNat 32 (entryCnt * entrySize)).toInt = entryCnt * entrySize := by
  rw [BitVec.toInt_eq_toNat_cond] at nonneg ⊢
  rw [BitVec.toNat_ofNat, Nat.mod_eq_of_lt fits] at nonneg ⊢
  split
  · push_cast
    rfl
  · next large =>
    rw [if_neg large] at nonneg
    omega

/-- A directory that has just been made. -/
theorem catalog_created {next : FileSys} {sector entryCnt : Nat} {extra : Ptr → Nat}
    (sound : Sound inodes fs Set.univ extra) (kept : freeMapSector ∉ removedSet fs)
    (notStored : sector ∉ inodes)
    (fits : entryCnt * entrySize < 2 ^ 32)
    (nonneg : 0 ≤ (BitVec.ofNat 32 (entryCnt * entrySize)).toInt)
    (created : Created inodes fs next Set.univ extra sector
      (BitVec.ofNat 32 (entryCnt * entrySize))) :
    Catalog ⟨sector, entryCnt⟩ (insert sector inodes) next ∧
      ∀ index < entryCnt, (entryAt ⟨sector, entryCnt⟩ next.disk index).inUse = 0 := by
  have sized : Sized ⟨sector, entryCnt⟩ next.disk := by
    unfold Sized inodeLength
    rw [created.size]
    exact directory_length fits nonneg
  have free : ∀ index < entryCnt, (entryAt ⟨sector, entryCnt⟩ next.disk index).inUse = 0 := by
    intro index inside
    apply no_entry_in_use sized _ inside
    dsimp only
    rw [created.zero, inodeLength, created.size]
  have noName : ∀ index owner, ¬Names ⟨sector, entryCnt⟩ next.disk index owner := by
    rintro index owner ⟨inside, inUse, _⟩
    exact inUse (free index inside)
  refine ⟨?_, free⟩
  constructor
  case dirIn => exact Set.mem_insert _ _
  case dirApart =>
    rintro rfl
    exact notStored (map_live sound)
  case sized => exact sized
  case named => exact fun index owner names => absurd names (noName index owner)
  case entriesApart => exact fun first _ owner names => absurd names (noName first owner)
  case fixed =>
    refine ⟨fun gone => kept (created.kept.removed gone), fun gone => ?_⟩
    exact notStored (removed_stored sound.toTable (created.kept.removed gone))
  case noFile =>
    rintro file handle target here reached rfl
    rw [created.table] at reached
    exact notStored (sound.live _ _ reached)

theorem dir_create_ensures {sector entryCnt : Nat} {extra : Ptr → Nat}
    (sound : Sound inodes fs Set.univ extra) (unowned : Unowned inodes fs.disk sector)
    (used : sector ∈ marked fs.freeMap) :
    Ensures (dirCreate sector entryCnt) fs fun result next => result = true →
      0 ≤ (BitVec.ofNat 32 (entryCnt * entrySize)).toInt ∧
        Created inodes fs next Set.univ extra sector (BitVec.ofNat 32 (entryCnt * entrySize)) := by
  unfold dirCreate
  by_cases negative : (BitVec.ofNat 32 (entryCnt * entrySize)).toInt < 0
  · unfold inodeCreate
    rw [if_pos negative]
    exact ensures_throw
  · have nonneg : 0 ≤ (BitVec.ofNat 32 (entryCnt * entrySize)).toInt := by omega
    apply ensures_returns
    apply returns_mono (inode_create_returns sound nonneg unowned used)
    rintro _ next (⟨rfl, created⟩ | ⟨rfl, _⟩)
    · exact fun _ => ⟨nonneg, created⟩
    · exact nofun

theorem dir_open_ensures (inode : Option Ptr) :
    Ensures (dirOpen inode) fs fun result next => ∀ dir, result = some dir →
      inode = some dir.inode ∧ dir.pos = 0 ∧ Requested fs next := by
  unfold dirOpen
  refine ensures_bind (ensures_returns (malloc_returns fs)) ?_
  rintro pointer _ ⟨rfl, rfl⟩
  have anyway : ∀ inode, Ensures (inodeClose inode >>= fun _ => return none : FsM (Option Dir))
      { fs with requests := fs.requests + 1 } fun result next => ∀ dir, result = some dir →
        inode = some dir.inode ∧ dir.pos = 0 ∧ Requested fs next := by
    intro inode
    refine ensures_bind (fun _ _ _ => trivial : Ensures _ _ fun _ _ => True) ?_
    intro _ _ _
    exact ensures_pure nofun
  cases inode with
  | none => exact anyway none
  | some inode =>
      cases fs.memory fs.requests with
      | false => exact anyway (some inode)
      | true =>
          apply ensures_pure
          rintro _ ⟨⟩
          exact ⟨rfl, rfl, fs.requests + 1, Nat.le_succ _, rfl⟩

theorem make_directory_ensures {entryCnt : Nat} (sound : Sound inodes fs Set.univ (fun _ => 0))
    (kept : freeMapSector ∉ removedSet fs) (fits : entryCnt * entrySize < 2 ^ 32) :
    Ensures (makeDirectory entryCnt) fs fun result next =>
      ∀ sector dir, result = some (sector, dir) → Calm fs next ∧
        DirOpened ⟨sector, entryCnt⟩ (insert sector inodes) next (fun _ => 0) dir ∧
        ∀ index < entryCnt, (entryAt ⟨sector, entryCnt⟩ next.disk index).inUse = 0 := by
  unfold makeDirectory
  refine ensures_bind (ensures_returns (allocate_returns sound 1)) ?_
  rintro (_ | sector) second ⟨calm, confined, again, table, result⟩
  · exact ensures_pure nofun
  obtain ⟨inside, free, map, _⟩ := result
  have clear := free 0 (by omega)
  rw [Nat.add_zero] at clear
  have unowned : Unowned inodes second.disk sector :=
    unowned_confined (unowned_of_free sound.stored clear) confined
  have used : sector ∈ marked second.freeMap := by
    rw [map, marked_allocated (by rw [sound.stored.mapLength]; exact inside)]
    exact .inr ⟨Nat.le_refl _, Nat.lt_succ_self _⟩
  have notStored := unowned_not_stored unowned
  refine ensures_bind (dir_create_ensures again unowned used) ?_
  rintro (_ | _) third made
  · exact ensures_pure nofun
  obtain ⟨nonneg, created⟩ := made rfl
  rw [if_pos rfl]
  obtain ⟨catalog, empty⟩ := catalog_created again (fun gone => kept (calm.removed gone))
    notStored fits nonneg created
  refine ensures_bind (ensures_returns (inode_open_sound created.sound (Set.mem_insert _ _))) ?_
  rintro result fourth ⟨opened, rest⟩
  refine ensures_bind (dir_open_ensures result) ?_
  rintro (_ | dir) fifth its
  · exact ensures_pure nofun
  obtain ⟨rfl, _, requested⟩ := its dir rfl
  apply ensures_pure
  rintro _ _ ⟨⟩
  obtain ⟨ready, target, present, isDir⟩ := rest
  have settled := catalog_opened catalog created.sound.toTable opened
  have last := catalog_requested settled ready.toTable requested
  have final := sound_requested ready requested
  obtain ⟨requests, grown, rfl⟩ := requested
  refine ⟨calm_trans calm.toCalm (calm_trans created.kept.toCalm (calm_trans opened.kept.toCalm
    (kept_device grown).toCalm)), ⟨final, last, target, present, isDir⟩, ?_⟩
  intro index below
  dsimp only
  rw [opened.disk]
  exact empty index below

theorem represents_empty {place : Place} {disk : Disk}
    (free : ∀ index < place.entries, (entryAt place disk index).inUse = 0) :
    Represents place disk (fun _ => none) where
  mapped := by
    intro name sector
    refine ⟨nofun, ?_⟩
    rintro ⟨index, ⟨inside, inUse, _⟩, _⟩
    exact absurd (free index inside) inUse
  unique := fun first _ firstIn _ firstUsed => absurd (free first firstIn) firstUsed
  short := fun index inside used => absurd (free index inside) used

end Making

section Steps

variable {place : Place} {fs : FileSys} {dir : Dir} {map : NameMap} {spare : Set Nat}

theorem new_entry_string {found : List Byte} {name : Name} {sector : Nat} (valid : ValidName name)
    (noNul : (0 : Byte) ∉ name) : (newEntry found name sector).string = name :=
  copy_name_string valid.2 noNul

theorem add_in_step (inStep : InStep place fs dir map spare) {name : Name} {sector : Nat}
    (noNul : (0 : Byte) ∉ name) (member : sector ∈ spare) :
    Returns (dirAdd dir name sector) fs fun result next =>
      (result = true ∧ (ValidName name ∧ map name = none ∧ (domain map).ncard < place.entries) ∧
        InStep place next dir (Function.update map name (some sector)) (spare \ {sector})) ∨
      (result = false ∧ ¬(ValidName name ∧ map name = none ∧ (domain map).ncard < place.entries) ∧
        InStep place next dir map spare) := by
  obtain ⟨plenty, ⟨inodes, opened, nameable⟩, represents⟩ := inStep
  obtain ⟨target, present, isDir⟩ := opened.reached
  have its := nameable sector member
  have small := (opened.sound.stored.valid _ (map_live opened.sound)).small
  have below := inode_lt opened.sound.stored its.stored
  apply returns_mono (dir_add_returns opened.sound opened.catalog present isDir its name)
  rintro result next (⟨rfl, valid, index, inside, found, entered, linked, when_⟩ |
    ⟨rfl, requested, why⟩)
  · obtain ⟨absent, free⟩ := when_ plenty
    have none_ := (mapped_none represents name).mpr absent
    refine .inl ⟨rfl, ⟨valid, none_, (not_full_iff represents).mpr ⟨index, inside, free⟩⟩, ?_⟩
    have itsSector : (newEntry found name sector).inodeSector.toNat = sector := by
      simp only [newEntry, BitVec.toNat_ofNat]
      omega
    have removedSame : removedSet next = removedSet fs := by
      unfold removedSet
      rw [entered.table]
    refine ⟨(plenty_calm entered.kept.toCalm).mpr plenty, ⟨inodes, ?_, ?_⟩, ?_⟩
    · exact dir_opened_kept opened entered.sound linked entered.kept.toCalm
    · rintro other ⟨otherIn, different⟩
      have was := nameable other otherIn
      refine ⟨was.stored, was.notMap, was.notDir, by rw [removedSame]; exact was.kept, ?_⟩
      rintro j ⟨bound, inUse, owns⟩
      by_cases here : j = index
      · rw [here, entered.written, itsSector] at owns
        exact different owns.symm
      · rw [entered.others j here] at inUse owns
        exact was.unnamed j ⟨bound, inUse, owns⟩
    · apply represents_add represents inside free none_ _ _ _ valid entered.others
      · rw [entered.written]
        exact (by decide : (1 : Byte) ≠ 0)
      · rw [entered.written]
        exact new_entry_string valid noNul
      · rw [entered.written]
        exact itsSector
  · refine .inr ⟨rfl, ?_, ?_⟩
    · rintro ⟨valid, none_, room⟩
      rcases why plenty with invalid | ⟨j, inside, there⟩ | full
      · exact invalid valid
      · exact (mapped_none represents name).mp none_ j inside there
      · obtain ⟨j, inside, free⟩ := (not_full_iff represents).mp room
        exact full j inside free
    · have again := sound_requested opened.sound requested
      have settled := catalog_requested opened.catalog opened.sound.toTable requested
      have calm := (kept_requested requested).toCalm
      refine ⟨(plenty_calm calm).mpr plenty,
        ⟨inodes, dir_opened_kept opened again settled calm, ?_⟩, ?_⟩
      · obtain ⟨requests, _, rfl⟩ := requested
        intro other otherIn
        have was := nameable other otherIn
        exact ⟨was.stored, was.notMap, was.notDir, was.kept, was.unnamed⟩
      · obtain ⟨requests, _, rfl⟩ := requested
        exact represents

/-- Inodes that have no name stay as they are when others are closed or removed. -/
theorem nameable_frame {inodes rest : Set Nat} {next : FileSys} {sector : Nat}
    (nameable : Nameable place inodes fs sector) (stored : sector ∈ rest)
    (kept : sector ∉ removedSet next)
    (names : ∀ index, Names place next.disk index sector → ∃ j, Names place fs.disk j sector) :
    Nameable place rest next sector where
  stored := stored
  notMap := nameable.notMap
  notDir := nameable.notDir
  kept := kept
  unnamed := by
    intro index here
    obtain ⟨j, there⟩ := names index here
    exact nameable.unnamed j there

theorem in_step_closes {inodes : Set Nat} {next : FileSys} (plenty : Plenty fs)
    (opened : DirOpened place inodes fs (fun _ => 0) dir)
    (nameable : ∀ sector ∈ spare, Nameable place inodes fs sector)
    (represents : Represents place fs.disk map)
    (closes : Closes inodes fs next (bump (fun _ => 0) dir.inode)) :
    InStep place next dir map spare := by
  obtain ⟨rest, most, _, sound, settled⟩ :=
    catalog_closes opened.catalog opened.sound.toTable closes
  have same : ∀ index < place.entries, entryAt place next.disk index = entryAt place fs.disk index :=
    fun index inside => entry_at_congr opened.catalog.sized
      (closes.confined.inode _ opened.catalog.dirIn)
      (closes.confined.data _ opened.catalog.dirIn (map_spared opened.catalog)) inside
  refine ⟨(plenty_calm closes.kept.toCalm).mpr plenty,
    ⟨rest, dir_opened_kept opened sound settled closes.kept.toCalm, ?_⟩,
    represents_congr represents same⟩
  intro sector member
  have was := nameable sector member
  apply nameable_frame was (most ⟨was.stored, was.kept⟩)
    (fun gone => was.kept (closes.kept.removed gone))
  intro index names
  exact ⟨index, (names_congr same).mp names⟩

theorem remove_in_step (inStep : InStep place fs dir map spare) (name : Name) :
    Returns (dirRemove dir name) fs fun result next =>
      (result = true ∧ map name ≠ none ∧
        InStep place next dir (Function.update map name none) spare) ∨
      (result = false ∧ map name = none ∧ InStep place next dir map spare) := by
  obtain ⟨plenty, ⟨inodes, opened, nameable⟩, represents⟩ := inStep
  obtain ⟨target, present, isDir⟩ := opened.reached
  apply returns_mono (dir_remove_returns opened.sound opened.catalog present isDir name)
  rintro result next (⟨rfl, index, inside, matches_, unlinked⟩ | ⟨rfl, closes, absent⟩)
  · have here := mapped_some represents inside matches_
    refine .inl ⟨rfl, by rw [here]; exact nofun, ?_⟩
    obtain ⟨rest, most, _, sound, settled⟩ := unlinked.rest
    refine ⟨(plenty_calm unlinked.calm).mpr plenty,
      ⟨rest, dir_opened_kept opened sound settled unlinked.calm, ?_⟩,
      represents_remove represents inside matches_ unlinked.cleared unlinked.others⟩
    intro sector member
    have was := nameable sector member
    have apart : sector ∉ insert (entryAt place fs.disk index).inodeSector.toNat
        (removedSet fs) := by
      rintro (same | gone)
      · exact was.unnamed index ⟨inside, matches_.1, same.symm⟩
      · exact was.kept gone
    apply nameable_frame was (most ⟨was.stored, apart⟩) (fun gone => apart (unlinked.removed gone))
    rintro j ⟨bound, inUse, owns⟩
    have different : j ≠ index := by
      rintro rfl
      exact inUse unlinked.cleared
    rw [unlinked.others j bound different] at inUse owns
    exact ⟨j, bound, inUse, owns⟩
  · refine .inr ⟨rfl, (mapped_none represents name).mpr (absent plenty), ?_⟩
    exact in_step_closes plenty opened nameable represents closes

theorem lookup_in_step (inStep : InStep place fs dir map spare) (name : Name) :
    Returns (lookupSector dir name) fs fun result next =>
      result = map name ∧ InStep place next dir map spare := by
  obtain ⟨plenty, ⟨inodes, opened, nameable⟩, represents⟩ := inStep
  unfold lookupSector
  apply returns_bind (dir_lookup_returns opened name)
  rintro (_ | inode) middle ⟨late, rest⟩
  · obtain ⟨sound, absent⟩ := rest
    apply returns_pure
    refine ⟨((mapped_none represents name).mpr (absent plenty)).symm, ?_⟩
    apply in_step_closes plenty opened nameable represents
    exact closes_after_opened late (closes_requested sound (requested_refl _))
  · obtain ⟨sound, target, present, index, inside, matches_, place_⟩ := rest
    apply returns_bind (inode_at_returns present)
    rintro _ _ ⟨rfl, rfl⟩
    apply returns_bind (inode_close_closes sound)
    intro _ last closes
    apply returns_pure
    refine ⟨?_, in_step_closes plenty opened nameable represents (closes_after_opened late closes)⟩
    rw [place_, mapped_some represents inside matches_]

theorem create_in_step (inStep : InStep place fs dir map spare) {length : Word}
    (nonneg : 0 ≤ length.toInt) :
    Returns (createInode length) fs fun result next =>
      InStep place next dir map ({ sector | result = some sector } ∪ spare) := by
  obtain ⟨plenty, ⟨inodes, opened, nameable⟩, represents⟩ := inStep
  apply returns_mono (create_inode_returns opened.sound nonneg)
  rintro result next ⟨kept, confined, _, _, made⟩
  have same : ∀ index < place.entries, entryAt place next.disk index = entryAt place fs.disk index :=
    fun index inside => entry_at_congr opened.catalog.sized
      (confined.inode _ opened.catalog.dirIn)
      (confined.data _ opened.catalog.dirIn (map_spared opened.catalog)) inside
  have older : ∀ rest, inodes ⊆ rest → ∀ sector ∈ spare, Nameable place rest next sector := by
    intro rest more sector member
    have was := nameable sector member
    apply nameable_frame was (more was.stored) (fun gone => was.kept (kept.removed gone))
    intro index names
    exact ⟨index, (names_congr same).mp names⟩
  have enough := (plenty_calm kept.toCalm).mpr plenty
  have showing := represents_congr represents same
  cases result with
  | none =>
      have settled : Catalog place inodes next := catalog_confined opened.catalog
        opened.sound.toTable kept confined (map_spared opened.catalog) Set.sdiff_subset
      refine ⟨enough, ⟨inodes, dir_opened_kept opened made settled kept.toCalm, ?_⟩, showing⟩
      rintro sector (impossible | member)
      · cases impossible
      · exact older inodes Set.Subset.rfl sector member
  | some sector =>
      obtain ⟨notStored, sound⟩ := made
      have settled : Catalog place (insert sector inodes) next := catalog_confined opened.catalog
        opened.sound.toTable kept confined (map_spared opened.catalog)
        (fun owner here => Set.mem_insert_of_mem _ here.1)
      refine ⟨enough, ⟨_, dir_opened_kept opened sound settled kept.toCalm, ?_⟩, showing⟩
      rintro other (new | member)
      · cases new
        exact created_nameable opened.sound opened.catalog notStored confined kept.removed
      · exact older _ (Set.subset_insert _ _) other member

theorem perform_in_step (inStep : InStep place fs dir map spare) {call : Call}
    (allowed : call.Allowed spare) :
    Returns (call.perform dir) fs fun answer next =>
      answer = (map.perform place.entries call).1 ∧
        InStep place next dir (map.perform place.entries call).2 (call.spareAfter spare answer) := by
  cases call with
  | add name sector =>
      obtain ⟨noNul, member⟩ := allowed
      apply returns_bind (add_in_step inStep noNul member)
      rintro result next (⟨rfl, accepted, after⟩ | ⟨rfl, refused, after⟩)
      · apply returns_pure
        have done : map.perform place.entries (.add name sector) =
          (.success true, Function.update map name (some sector)) := if_pos accepted
        rw [done]
        exact ⟨rfl, after⟩
      · apply returns_pure
        have same : map.perform place.entries (.add name sector) = (.success false, map) :=
          if_neg refused
        rw [same]
        exact ⟨rfl, after⟩
  | remove name =>
      apply returns_bind (remove_in_step inStep name)
      rintro result next (⟨rfl, here, after⟩ | ⟨rfl, absent, after⟩)
      · apply returns_pure
        have done : map.perform place.entries (.remove name) =
          (.success true, Function.update map name none) := if_pos here
        rw [done]
        exact ⟨rfl, after⟩
      · apply returns_pure
        have same : map.perform place.entries (.remove name) = (.success false, map) :=
          if_neg (not_not.mpr absent)
        rw [same]
        exact ⟨rfl, after⟩
  | lookup name =>
      apply returns_bind (lookup_in_step inStep name)
      rintro _ next ⟨rfl, after⟩
      exact returns_pure ⟨rfl, after⟩

end Steps

section Listing

variable {place : Place} {fs : FileSys} {inode : Ptr} {target : Volume.Inode}

/-- The entries in use from `index` on, in order. -/
def usedFrom (place : Place) (disk : Disk) (index : Nat) : List Nat :=
  (List.range' index (place.entries - index)).filter fun j => (entryAt place disk j).inUse ≠ 0

theorem used_from_past {disk : Disk} {index : Nat} (past : place.entries ≤ index) :
    usedFrom place disk index = [] := by
  unfold usedFrom
  rw [Nat.sub_eq_zero_of_le past]
  rfl

theorem used_from_step {disk : Disk} {index : Nat} (inside : index < place.entries) :
    usedFrom place disk index =
      if (entryAt place disk index).inUse ≠ 0 then index :: usedFrom place disk (index + 1)
      else usedFrom place disk (index + 1) := by
  unfold usedFrom
  obtain ⟨rest, count⟩ : ∃ rest, place.entries - index = rest + 1 :=
    ⟨place.entries - index - 1, by omega⟩
  have less : place.entries - (index + 1) = rest := by omega
  rw [count, List.range'_succ, List.filter_cons, less]
  by_cases used : (entryAt place disk index).inUse ≠ 0
  · rw [if_pos used, if_pos (decide_eq_true used)]
  · rw [if_neg used, if_neg (by rw [decide_eq_false used]; exact Bool.false_ne_true)]

/-- `dir_readdir` stops behind the next entry in use. -/
theorem readdir_loop_returns (rounds : Nat) (fs : FileSys) (index : Nat) (plenty : Plenty fs)
    (dir : DirInode place fs inode target) (enough : place.entries < index + rounds) :
    Returns (readdirLoop inode rounds (entrySize * index)) fs fun result next =>
      Requested fs next ∧
        match usedFrom place fs.disk index with
        | [] => result.1 = none
        | j :: rest => result.1 = some ((entryAt place fs.disk j).string.take nameMax) ∧
            result.2 = entrySize * (j + 1) ∧ rest = usedFrom place fs.disk (j + 1) := by
  induction rounds generalizing fs index with
  | zero =>
      rw [used_from_past (by omega)]
      exact returns_pure ⟨requested_refl fs, rfl⟩
  | succ rounds induction =>
      unfold readdirLoop
      apply returns_bind (entry_read_returns dir index)
      rintro bytes middle ⟨requested, whole | short⟩
      · obtain ⟨full, inside, read⟩ := whole
        rw [if_pos full]
        dsimp only
        rw [read, used_from_step inside]
        by_cases used : (entryAt place fs.disk index).inUse ≠ 0
        · rw [if_pos used, if_pos used]
          apply returns_pure
          exact ⟨requested, rfl, rfl, rfl⟩
        · rw [if_neg used, if_neg used]
          have again := dir_inode_requested dir requested
          have still := (plenty_calm (kept_requested requested).toCalm).mpr plenty
          refine returns_mono (induction middle (index + 1) still again (by omega)) ?_
          obtain ⟨requests, grown, rfl⟩ := requested
          rintro result last ⟨more, rest⟩
          exact ⟨requested_trans ⟨requests, grown, rfl⟩ more, rest⟩
      · obtain ⟨none_, past⟩ := short
        rw [if_neg (by rw [none_]; decide), used_from_past (past plenty)]
        exact returns_pure ⟨requested, rfl⟩

theorem dir_readdir_returns (index : Nat) (plenty : Plenty fs)
    (dir : DirInode place fs inode target) :
    Returns (dirReaddir { inode := inode, pos := entrySize * index }) fs fun result next =>
      Requested fs next ∧
        match usedFrom place fs.disk index with
        | [] => result.1 = none
        | j :: rest => result = (some ((entryAt place fs.disk j).string.take nameMax),
            { inode := inode, pos := entrySize * (j + 1) }) ∧
            rest = usedFrom place fs.disk (j + 1) := by
  have small := entries_bounded dir
  unfold dirReaddir
  apply returns_bind (readdir_loop_returns (2 ^ 27) fs index plenty dir (by omega))
  rintro ⟨name, pos⟩ next ⟨requested, result⟩
  apply returns_pure
  refine ⟨requested, ?_⟩
  cases left : usedFrom place fs.disk index with
  | nil =>
      rw [left] at result
      exact result
  | cons j rest =>
      rw [left] at result
      obtain ⟨rfl, rfl, same⟩ := result
      exact ⟨rfl, same⟩

theorem read_all_returns (rounds : Nat) (fs : FileSys) (index : Nat) (plenty : Plenty fs)
    (dir : DirInode place fs inode target)
    (enough : (usedFrom place fs.disk index).length < rounds) :
    Returns (readAll rounds { inode := inode, pos := entrySize * index }) fs fun names next =>
      Requested fs next ∧ names = (usedFrom place fs.disk index).map fun j =>
        (entryAt place fs.disk j).string.take nameMax := by
  induction rounds generalizing fs index with
  | zero => omega
  | succ rounds induction =>
      unfold readAll
      apply returns_bind (dir_readdir_returns index plenty dir)
      rintro ⟨name, moved⟩ middle ⟨requested, result⟩
      cases left : usedFrom place fs.disk index with
      | nil =>
          rw [left] at result
          dsimp only at result
          subst result
          exact returns_pure ⟨requested, rfl⟩
      | cons j rest =>
          rw [left] at result enough
          obtain ⟨same, rfl⟩ := result
          cases same
          have again := dir_inode_requested dir requested
          have still := (plenty_calm (kept_requested requested).toCalm).mpr plenty
          obtain ⟨requests, grown, rfl⟩ := requested
          rw [List.length_cons] at enough
          apply returns_bind (induction _ (j + 1) still again (Nat.lt_of_succ_lt_succ enough))
          rintro names last ⟨more, rfl⟩
          apply returns_pure
          exact ⟨requested_trans ⟨requests, grown, rfl⟩ more, rfl⟩

theorem used_from_length (disk : Disk) (index : Nat) :
    (usedFrom place disk index).length ≤ place.entries := by
  unfold usedFrom
  have less := List.length_filter_le (fun j => decide ((entryAt place disk j).inUse ≠ 0))
    (List.range' index (place.entries - index))
  rw [List.length_range'] at less
  omega

theorem mem_used_from {disk : Disk} {j : Nat} :
    j ∈ usedFrom place disk 0 ↔ j < place.entries ∧ (entryAt place disk j).inUse ≠ 0 := by
  unfold usedFrom
  rw [List.mem_filter, List.mem_range'_1, decide_eq_true_eq]
  constructor
  · rintro ⟨⟨_, inside⟩, used⟩
    exact ⟨by omega, used⟩
  · rintro ⟨inside, used⟩
    exact ⟨⟨Nat.zero_le _, by omega⟩, used⟩

/-- A pass over the directory lists each name of the map once. -/
theorem listing_names {map : NameMap} {disk : Disk} (represents : Represents place disk map) :
    ((usedFrom place disk 0).map fun j => (entryAt place disk j).string.take nameMax).Nodup ∧
      ∀ name, name ∈ ((usedFrom place disk 0).map fun j =>
        (entryAt place disk j).string.take nameMax) ↔ map name ≠ none := by
  have whole : ((usedFrom place disk 0).map fun j => (entryAt place disk j).string.take nameMax) =
      (usedFrom place disk 0).map fun j => (entryAt place disk j).string := by
    apply List.map_congr_left
    intro j member
    obtain ⟨inside, used⟩ := mem_used_from.mp member
    exact List.take_of_length_le (represents.short j inside used)
  rw [whole]
  constructor
  · apply List.Nodup.map_on
    · intro first firstIn second secondIn same
      obtain ⟨inside, used⟩ := mem_used_from.mp firstIn
      obtain ⟨insideToo, usedToo⟩ := mem_used_from.mp secondIn
      exact represents.unique first second inside insideToo used usedToo same
    · exact List.Nodup.filter _ List.nodup_range'
  · intro name
    rw [List.mem_map]
    constructor
    · rintro ⟨j, member, rfl⟩
      obtain ⟨inside, used⟩ := mem_used_from.mp member
      rw [mapped_some represents inside ⟨used, rfl⟩]
      exact nofun
    · intro here
      obtain ⟨sector, found⟩ := Option.ne_none_iff_exists'.mp here
      obtain ⟨j, ⟨inside, used, _⟩, string⟩ := (represents.mapped name sector).mp found
      exact ⟨j, mem_used_from.mpr ⟨inside, used⟩, string.symm⟩

end Listing

theorem reachable_in_step {entryCnt : Nat} (fits : entryCnt * entrySize < 2 ^ 32)
    {session : Session} (reachable : Reachable entryCnt session) :
    InStep ⟨session.sector, entryCnt⟩ session.fs session.dir session.map session.spare := by
  induction reachable with
  | @start client sector dir fs before plenty made =>
      obtain ⟨⟨inodes, sound, catalog⟩, _⟩ := reachable_fine before
      obtain ⟨calm, opened, free⟩ :=
        make_directory_ensures sound catalog.fixed.1 fits _ _ made sector dir rfl
      exact ⟨(plenty_calm calm).mpr plenty, ⟨_, opened, fun _ none_ => none_.elim⟩,
        represents_empty free⟩
  | create _ nonneg ran inStep =>
      have after := returns_ok (create_in_step inStep nonneg) ran
      exact after
  | step _ allowed ran inStep => exact (returns_ok (perform_in_step inStep allowed) ran).2

/-- A directory made with room for `entryCnt` entries, where the size does not overflow,
answers as a finite map with room for `entryCnt` names does. -/
theorem directory_is_finite_map {entryCnt : Nat} (fits : entryCnt * entrySize < 2 ^ 32)
    {session : Session} (reachable : Reachable entryCnt session) :
    (∀ call : Call, call.Allowed session.spare →
      Returns (call.perform session.dir) session.fs fun answer _ =>
        answer = (session.map.perform entryCnt call).1) ∧
    (∀ first second, first < entryCnt → second < entryCnt →
      (entryAt ⟨session.sector, entryCnt⟩ session.fs.disk first).inUse ≠ 0 →
      (entryAt ⟨session.sector, entryCnt⟩ session.fs.disk second).inUse ≠ 0 →
      (entryAt ⟨session.sector, entryCnt⟩ session.fs.disk first).string =
        (entryAt ⟨session.sector, entryCnt⟩ session.fs.disk second).string → first = second) ∧
    Returns (readAll (entryCnt + 1) { session.dir with pos := 0 }) session.fs fun names _ =>
      names.Nodup ∧ ∀ name, name ∈ names ↔ session.map name ≠ none := by
  have inStep := reachable_in_step fits reachable
  refine ⟨?_, inStep.represents.unique, ?_⟩
  · intro call allowed
    apply returns_mono (perform_in_step inStep allowed)
    intro answer _ post
    exact post.1
  · obtain ⟨plenty, ⟨inodes, opened, _⟩, represents⟩ := inStep
    obtain ⟨target, present, isDir⟩ := opened.reached
    obtain ⟨its, _⟩ := dir_inode opened.sound opened.catalog present isDir
    have few := @used_from_length ⟨session.sector, entryCnt⟩ session.fs.disk 0
    apply returns_mono (read_all_returns (entryCnt + 1) session.fs 0 plenty its
      (Nat.lt_succ_of_le few))
    rintro _ _ ⟨_, rfl⟩
    exact listing_names represents

/-- Formatting a device, making a directory and adding one name to it. -/
def addFirst (entryCnt : Nat) (name : Name) : FsM (Option Bool) := do
  filesysInit true
  match ← makeDirectory entryCnt with
  | none => return none
  | some (_, dir) =>
      match ← createInode 0 with
      | none => return none
      | some sector => return some (← dirAdd dir name sector)

theorem first_add_reachable {entryCnt size : Nat} {name : Name} {result : Bool}
    (accepted : IdeAccepts size) (small : size < 2 ^ 21)
    (runs : (addFirst entryCnt name).run' (powerUp size (fun _ => 0) fun _ => true) =
      some (some result)) :
    ∃ session, Reachable entryCnt session ∧ session.map = (fun _ => none) ∧
      ∃ sector ∈ session.spare, ∃ next,
        dirAdd session.dir name sector session.fs = .ok result next := by
  obtain ⟨last, ran⟩ := ok_of_run runs
  unfold addFirst at ran
  obtain ⟨_, formatted_, first, ran⟩ := bind_ok ran
  have plenty : Plenty formatted_ := by
    obtain ⟨_, memory, _⟩ := filesys_init_format_ensures size _ _ small _ _ first
    intro request
    rw [memory]
  obtain ⟨made, second, making, ran⟩ := bind_ok ran
  rcases made with _ | ⟨sector, dir⟩
  · cases ran
  obtain ⟨created, third, creating, ran⟩ := bind_ok ran
  rcases created with _ | inodeSector
  · cases ran
  obtain ⟨added, fourth, adding, ran⟩ := bind_ok ran
  cases ran
  have begun := Reachable.start (.format accepted first) plenty making
  have nonneg : 0 ≤ (0 : Word).toInt := by decide
  have ready := Reachable.create begun nonneg creating
  exact ⟨_, ready, rfl, inodeSector, .inl rfl, last, adding⟩

theorem one_name_fits {capacity : Nat} {map : NameMap} (empty : map = fun _ => none)
    (room : 0 < capacity) {name : Name} (valid : ValidName name) (sector : Nat) :
    (map.perform capacity (.add name sector)).1 = .success true := by
  have nothing : domain map = ∅ := by
    ext other
    rw [empty]
    exact ⟨fun inside => inside rfl, fun none_ => none_.elim⟩
  have accepted : ValidName name ∧ map name = none ∧ (domain map).ncard < capacity := by
    rw [nothing, Set.ncard_empty]
    exact ⟨valid, by rw [empty], room⟩
  have done : map.perform capacity (.add name sector) =
    (.success true, Function.update map name (some sector)) := if_pos accepted
  rw [done]

theorem directory_is_finite_map_two_entries :
    ∃ session, Reachable 2 session ∧ ∃ sector ∈ session.spare,
      Returns ((Call.add [0x61] sector).perform session.dir) session.fs fun answer _ =>
        answer = .success true := by
  have runs : (addFirst 2 [0x61]).run' (powerUp 12 (fun _ => 0) fun _ => true) =
      some (some true) := by decide +kernel
  obtain ⟨session, reachable, empty, sector, member, _⟩ :=
    first_add_reachable (by unfold IdeAccepts blockSectorSize; omega) (by decide) runs
  have answers := (directory_is_finite_map (by decide) reachable).1 (.add [0x61] sector)
    ⟨by decide, member⟩
  rw [one_name_fits empty (by decide) ⟨by decide, by decide⟩] at answers
  exact ⟨session, reachable, sector, member, answers⟩

/-- The size of a directory for 214748365 entries overflows to four bytes. -/
theorem overflowing_directory_is_full :
    ∃ session, Reachable 214748365 session ∧ ∃ call : Call, call.Allowed session.spare ∧
      ∃ answer next, call.perform session.dir session.fs = .ok answer next ∧
        answer ≠ (session.map.perform 214748365 call).1 := by
  have runs : (addFirst 214748365 [0x61]).run' (powerUp 12 (fun _ => 0) fun _ => true) =
      some (some false) := by decide +kernel
  obtain ⟨session, reachable, empty, sector, member, next, added⟩ :=
    first_add_reachable (by unfold IdeAccepts blockSectorSize; omega) (by decide) runs
  refine ⟨session, reachable, .add [0x61] sector, ⟨by decide, member⟩, .success false, next, ?_, ?_⟩
  · exact bind_run added
  · rw [one_name_fits empty (by decide) ⟨by decide, by decide⟩]
    exact nofun

end UtSystems.Filesys.DirectoryMap
