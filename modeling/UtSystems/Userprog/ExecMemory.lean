import UtSystems.Userprog.Elf
import UtSystems.Lib.Effects
import Mathlib.Data.List.Perm.Basic
import Mathlib.Data.List.Range
import Mathlib.Logic.Function.Basic

/-!
# The memory that starting a process takes

`sys_exec`, `process_execute`, `start_process` and `load` with the pages and heap blocks they
obtain: the copies of the command, the thread's page, the page directory, the page tables and
the pages of the segments and of the stack. The file objects belong to the file system and are
not counted here.

Each allocation has a number. A `World` decides which allocations succeed, what each
`filesys_open` finds, how much each `file_read` delivers and what is in the file. Parent and
child share no memory but the command's copy, which the parent hands over, so the child is run
to its end where it is created; a parent that is never woken has done all it will do.
-/

namespace UtSystems.Userprog.ExecMemory

open Lib.Bytes Lib.Effects Userprog.Elf

set_option autoImplicit false

/-- What `filesys_open` comes upon. -/
inductive Lookup where
  | noDirectory
  | absent
  | found
  deriving DecidableEq, Repr

structure World where
  available : Nat → Bool
  lookup : Nat → Lookup
  readLimit : Nat → Nat
  content : List Byte

/-- The numbers of the next allocation, open and read, and the blocks not yet released. -/
structure Memory where
  asked : Nat := 0
  opens : Nat := 0
  reads : Nat := 0
  live : List Nat := []
  -- a block was released that was not live
  misfreed : Bool := false
  deriving DecidableEq, Repr

inductive Stop where
  -- a false `ASSERT`
  | panic
  -- a store past the end of an array
  | overrun
  deriving DecidableEq, Repr

abbrev ExecM := EStateM Stop Memory

section Model

variable (w : World)

/-- `palloc_get_page` and `malloc`. -/
def getPage : ExecM (Option Nat) := do
  let memory ← get
  let block := memory.asked
  if w.available block then
    set { memory with asked := block + 1, live := block :: memory.live }
    return some block
  else
    set { memory with asked := block + 1 }
    return none

def freePage (block : Nat) : ExecM Unit :=
  modify fun memory =>
    if block ∈ memory.live then { memory with live := memory.live.erase block }
    else { memory with misfreed := true }

/-- Whether a file was opened; `dir_lookup` asserts that the name is not null. -/
def filesysOpen (name : Option (List Byte)) : ExecM Bool := do
  let memory ← get
  set { memory with opens := memory.opens + 1 }
  match w.lookup memory.opens with
  | .noDirectory => return false
  | .absent => if name = none then throw .panic else return false
  | .found => if name = none then throw .panic else return true

/-- `file_read` at a position. -/
def fileRead (position size : Nat) : ExecM (List Byte) := do
  let memory ← get
  set { memory with reads := memory.reads + 1 }
  return (w.content.drop position).take (min size (w.readLimit memory.reads))

structure PageTable where
  page : Nat
  pte : Nat → Option Nat

/-- A page directory, its user half. -/
structure Pagedir where
  page : Nat
  pde : Nat → Option PageTable

def pagedirCreate : ExecM (Option Pagedir) := do
  let page ← getPage w
  return page.map fun page => { page := page, pde := fun _ => none }

def pagedirDestroy (pd : Pagedir) : ExecM Unit := do
  (List.range 768).forM fun i =>
    match pd.pde i with
    | none => pure ()
    | some pt => do
        (List.range 1024).forM fun j =>
          match pt.pte j with
          | none => pure ()
          | some frame => freePage frame
        freePage pt.page
  freePage pd.page

def Pagedir.setPte (pd : Pagedir) (pt : PageTable) (upage kpage : Nat) : Pagedir :=
  { pd with
    pde := Function.update pd.pde (upage / 1024)
      (some { pt with pte := Function.update pt.pte (upage % 1024) (some kpage) }) }

/-- `pagedir_set_page` of a page, given by its number. -/
def pagedirSetPage (pd : Pagedir) (upage kpage : Nat) : ExecM (Bool × Pagedir) :=
  match pd.pde (upage / 1024) with
  | some pt => return (true, pd.setPte pt upage kpage)
  | none => do
      match ← getPage w with
      | none => return (false, pd)
      | some page => return (true, pd.setPte { page := page, pte := fun _ => none } upage kpage)

def Pagedir.mapped (pd : Pagedir) (upage : Nat) : Bool :=
  match pd.pde (upage / 1024) with
  | none => false
  | some pt => (pt.pte (upage % 1024)).isSome

def installPage (pd : Pagedir) (upage kpage : Nat) : ExecM (Bool × Pagedir) :=
  if physBase ≤ upage * pgSize then throw .panic
  else if pd.mapped upage then return (false, pd)
  else pagedirSetPage w pd upage kpage

/-- The loop of `load_segment`, which takes one page a turn. -/
def loadPages : Nat → Pagedir → Nat → Nat → Nat → ExecM (Bool × Pagedir)
  | 0, pd, _, _, _ => return (true, pd)
  | pages + 1, pd, position, upage, readBytes => do
      let pageReadBytes := min readBytes pgSize
      match ← getPage w with
      | none => return (false, pd)
      | some kpage =>
          let bytes ← fileRead w position pageReadBytes
          if bytes.length ≠ pageReadBytes then
            freePage kpage
            return (false, pd)
          else
            let (installed, pd) ← installPage w pd upage kpage
            if installed then
              loadPages pages pd (position + pageReadBytes) (upage + 1) (readBytes - pageReadBytes)
            else
              freePage kpage
              return (false, pd)

def loadSegment (pd : Pagedir) (ofs upage readBytes zeroBytes : Nat) : ExecM (Bool × Pagedir) :=
  if (readBytes + zeroBytes) % pgSize ≠ 0 then throw .panic
  else loadPages w ((readBytes + zeroBytes) / pgSize) pd ofs upage readBytes

def setupStack (pd : Pagedir) : ExecM (Bool × Pagedir) := do
  match ← getPage w with
  | none => return (false, pd)
  | some kpage =>
      let (installed, pd) ← installPage w pd (physBase / pgSize - 1) kpage
      if installed then return (true, pd)
      else
        freePage kpage
        return (false, pd)

def loadPhdr (pd : Pagedir) (phdr : List Byte) : ExecM (Bool × Pagedir) :=
  match treatment w.content.length phdr with
  | .ignore => return (true, pd)
  | .reject => return (false, pd)
  | .load segment =>
      loadSegment w pd segment.ofs segment.upage segment.readBytes segment.zeroBytes

/-- The loop over the program headers. -/
def loadPhdrs : Nat → Pagedir → Nat → ExecM (Bool × Pagedir)
  | 0, pd, _ => return (true, pd)
  | headers + 1, pd, fileOfs => do
      if 2 ^ 31 ≤ fileOfs ∨ w.content.length < fileOfs then return (false, pd)
      else
        let phdr ← fileRead w fileOfs 32
        if phdr.length ≠ 32 then return (false, pd)
        else
          let (loaded, pd) ← loadPhdr w pd phdr
          if loaded then loadPhdrs headers pd (fileOfs + 32) else return (false, pd)

inductive Loaded where
  | success
  | failed
  -- `sys_exit(12)`, which does not come back to `start_process`
  | exited
  deriving DecidableEq, Repr

def load (cmdstr : List Byte) : ExecM (Loaded × Option Pagedir) := do
  match ← pagedirCreate w with
  | none => return (.failed, none)
  | some pd =>
      -- `cmdstrCpy1` has 100 bytes
      if 100 ≤ cmdstr.length then throw .overrun
      else
        let fileName := strtok [0x20, 0x09, 0x0a] cmdstr
        if ← filesysOpen w fileName then
          let ehdr ← fileRead w 0 52
          if !ehdrOk ehdr then return (.exited, some pd)
          else
            let (loaded, pd) ← loadPhdrs w (ePhnum ehdr) pd (ePhoff ehdr)
            if !loaded then return (.failed, some pd)
            else
              let (stack, pd) ← setupStack w pd
              if !stack then return (.failed, some pd)
              else
                -- `file_deny_write` asserts that the file was opened
                if ← filesysOpen w fileName then return (.success, some pd) else throw .panic
        else return (.failed, some pd)

def processExit (pd : Option Pagedir) : ExecM Unit :=
  match pd with
  | none => return
  | some pd => pagedirDestroy pd

/-- `start_process`, the process, and its end; `thread_schedule_tail` releases its page. -/
def startProcess (command thread : Nat) (cmdstr : List Byte) : ExecM Unit := do
  let (loaded, pd) ← load w cmdstr
  match loaded with
  | .exited => pure ()
  | .failed => freePage command
  | .success => freePage command
  processExit pd
  freePage thread

def processExecute (command : List Byte) : ExecM Unit := do
  match ← getPage w with
  | none => return
  | some cmdCopy =>
      match ← getPage w with
      | none => freePage cmdCopy
      | some thread => startProcess w cmdCopy thread (command.take (pgSize - 1))

def sysExec (cmdLine : List Byte) : ExecM Unit := do
  match ← getPage w with
  -- `strlcpy` asserts that its target is not null
  | none => throw .panic
  | some _ =>
      if ← filesysOpen w (strtok [0x20] cmdLine) then processExecute w cmdLine
      else return

/-- `run_task` calls `process_execute` and `syscall_handler` calls `sys_exec`. -/
inductive Caller where
  | runTask
  | syscallHandler
  deriving DecidableEq, Repr

def exec (caller : Caller) (command : List Byte) : ExecM Unit :=
  match caller with
  | .runTask => processExecute w command
  | .syscallHandler => sysExec w command

/-- Each block that was obtained has been released exactly once. -/
def Conserved (memory : Memory) : Prop := memory.live = [] ∧ memory.misfreed = false

/-- From these numbers on, `load` comes to the header of an executable and rejects it. -/
def Rejects (asked opens reads : Nat) : Prop :=
  w.available asked = true ∧ w.lookup opens = .found ∧
    ehdrOk (w.content.take (min 52 (w.readLimit reads))) = false

/-- A process that `run_task` starts comes to the header check of `load` and fails it. -/
def HeaderRejected : Prop :=
  w.available 0 = true ∧ w.available 1 = true ∧ Rejects w 2 0 0

end Model

/-- The live blocks are these, and no other block was ever released. -/
structure Owns (memory : Memory) (blocks : List Nat) : Prop where
  perm : memory.live.Perm blocks
  once : memory.live.Nodup
  old : ∀ block ∈ memory.live, block < memory.asked
  clean : memory.misfreed = false

theorem owns_perm {memory : Memory} {blocks others : List Nat} (owns : Owns memory blocks)
    (perm : blocks.Perm others) : Owns memory others :=
  { owns with perm := owns.perm.trans perm }

section Blocks

variable {w : World} {memory : Memory} {blocks : List Nat}

theorem get_page_returns (owns : Owns memory blocks) :
    Returns (getPage w) memory fun page next =>
      (w.available memory.asked = false ∧ page = none ∧ Owns next blocks ∨
        w.available memory.asked = true ∧ page = some memory.asked ∧
          Owns next (memory.asked :: blocks)) ∧
      next.asked = memory.asked + 1 ∧ next.opens = memory.opens ∧ next.reads = memory.reads := by
  have older : ∀ block ∈ memory.live, block < memory.asked + 1 :=
    fun block member => Nat.lt_succ_of_lt (owns.old block member)
  apply returns_get
  dsimp only
  cases available : w.available memory.asked with
  | false =>
      apply returns_set
      refine returns_pure ⟨.inl ⟨rfl, rfl, ?_⟩, rfl, rfl, rfl⟩
      exact ⟨owns.perm, owns.once, older, owns.clean⟩
  | true =>
      apply returns_set
      refine returns_pure ⟨.inr ⟨rfl, rfl, ?_⟩, rfl, rfl, rfl⟩
      have fresh : memory.asked ∉ memory.live :=
        fun member => Nat.lt_irrefl _ (owns.old _ member)
      refine ⟨owns.perm.cons _, List.nodup_cons.mpr ⟨fresh, owns.once⟩, ?_, owns.clean⟩
      intro block member
      rcases List.mem_cons.mp member with rfl | rest
      · exact Nat.lt_succ_self _
      · exact older block rest

theorem free_page_returns {block : Nat} (owns : Owns memory (block :: blocks)) :
    Returns (freePage block) memory fun _ next => Owns next blocks := by
  have live : block ∈ memory.live := owns.perm.mem_iff.mpr List.mem_cons_self
  apply returns_modify_last
  rw [if_pos live]
  refine ⟨?_, owns.once.erase _, fun other member => owns.old other (List.mem_of_mem_erase member),
    owns.clean⟩
  have erased := owns.perm.erase block
  rwa [List.erase_cons_head] at erased

theorem owns_opens {opens reads : Nat} (owns : Owns memory blocks) :
    Owns { memory with opens := opens, reads := reads } blocks :=
  ⟨owns.perm, owns.once, owns.old, owns.clean⟩

theorem filesys_open_ensures {name : Option (List Byte)} (owns : Owns memory blocks) :
    Ensures (filesysOpen w name) memory fun found next =>
      (found = true ↔ w.lookup memory.opens = .found) ∧ Owns next blocks ∧
        next.reads = memory.reads := by
  unfold filesysOpen
  apply ensures_get
  intro found next ran
  cases outcome : w.lookup memory.opens with
  | noDirectory =>
      rw [outcome] at ran
      cases ran
      exact ⟨by simp, owns_opens owns, rfl⟩
  | absent =>
      rw [outcome] at ran
      by_cases null : name = none
      · subst null
        cases ran
      · simp only [null, if_false] at ran
        cases ran
        exact ⟨by simp, owns_opens owns, rfl⟩
  | found =>
      rw [outcome] at ran
      by_cases null : name = none
      · subst null
        cases ran
      · simp only [null, if_false] at ran
        cases ran
        exact ⟨by simp, owns_opens owns, rfl⟩

theorem file_read_returns {position size : Nat} (owns : Owns memory blocks) :
    Returns (fileRead w position size) memory fun bytes next =>
      bytes = (w.content.drop position).take (min size (w.readLimit memory.reads)) ∧
        Owns next blocks := by
  apply returns_get
  apply returns_set
  exact returns_pure ⟨rfl, owns_opens owns⟩

/-- A loop that releases what belongs to each index. -/
theorem for_releases {body : Nat → ExecM Unit} {owned : Nat → List Nat}
    (each : ∀ index memory rest, Owns memory (owned index ++ rest) →
      Returns (body index) memory fun _ next => Owns next rest)
    (indices : List Nat) (owns : Owns memory (indices.flatMap owned ++ blocks)) :
    Returns (indices.forM body) memory fun _ next => Owns next blocks := by
  induction indices generalizing memory with
  | nil => exact returns_pure owns
  | cons index others ih =>
      rw [List.flatMap_cons, List.append_assoc] at owns
      apply returns_bind (each index memory _ owns)
      intro _ next left
      exact ih left

end Blocks

section Pagedirs

@[irreducible] def frames (pte : Nat → Option Nat) : List Nat :=
  (List.range 1024).flatMap fun j => (pte j).toList

def PageTable.pages (pt : PageTable) : List Nat := frames pt.pte ++ [pt.page]

def tablePages : Option PageTable → List Nat
  | none => []
  | some pt => pt.pages

@[irreducible] def tables (pde : Nat → Option PageTable) : List Nat :=
  (List.range 768).flatMap fun i => tablePages (pde i)

/-- Everything that `pagedir_destroy` releases. -/
def Pagedir.pages (pd : Pagedir) : List Nat := tables pd.pde ++ [pd.page]

variable {w : World} {memory : Memory} {blocks : List Nat} {pd : Pagedir}

theorem pagedir_destroy_returns (owns : Owns memory (pd.pages ++ blocks)) :
    Returns (pagedirDestroy pd) memory fun _ next => Owns next blocks := by
  unfold Pagedir.pages tables at owns
  rw [List.append_assoc] at owns
  refine returns_bind (for_releases ?_ (List.range 768) owns) fun _ _ left => free_page_returns left
  intro i memory rest itsOwn
  cases entry : pd.pde i with
  | none =>
      rw [entry] at itsOwn
      exact returns_pure itsOwn
  | some pt =>
      rw [entry] at itsOwn
      unfold tablePages PageTable.pages frames at itsOwn
      rw [List.append_assoc] at itsOwn
      refine returns_bind (for_releases ?_ (List.range 1024) itsOwn)
        fun _ _ left => free_page_returns left
      intro j memory rest frameOwn
      cases frame : pt.pte j with
      | none =>
          rw [frame] at frameOwn
          exact returns_pure frameOwn
      | some page =>
          rw [frame] at frameOwn
          exact free_page_returns frameOwn

/-- A change at one index of a range shows once in what the range collects. -/
theorem flat_map_changed {collect changed : Nat → List Nat} {extra : List Nat} {index count : Nat}
    (inside : index < count) (same : ∀ other, other ≠ index → changed other = collect other)
    (grown : (changed index).Perm (extra ++ collect index)) :
    ((List.range count).flatMap changed).Perm (extra ++ (List.range count).flatMap collect) := by
  induction count with
  | zero => exact absurd inside (Nat.not_lt_zero _)
  | succ count ih =>
      rw [List.range_succ, List.flatMap_append, List.flatMap_append, List.flatMap_singleton,
        List.flatMap_singleton]
      by_cases last : index = count
      · subst last
        have before : (List.range index).flatMap changed = (List.range index).flatMap collect := by
          apply List.flatMap_congr
          intro other member
          exact same other (Nat.ne_of_lt (List.mem_range.mp member))
        rw [before]
        have middle := grown.append_left ((List.range index).flatMap collect)
        rw [← List.append_assoc] at middle
        rw [← List.append_assoc]
        exact middle.trans (List.perm_append_comm.append_right _)
      · rw [same count (Ne.symm last), ← List.append_assoc]
        exact (ih (by omega)).append_right _

theorem frames_set {pte : Nat → Option Nat} {index kpage : Nat} (inside : index < 1024)
    (unmapped : pte index = none) :
    (frames (Function.update pte index (some kpage))).Perm (kpage :: frames pte) := by
  unfold frames
  apply @flat_map_changed _ _ [kpage] index 1024 inside
  · intro other different
    rw [Function.update_of_ne different]
  · rw [Function.update_self, unmapped]
    exact List.Perm.refl _

theorem tables_set {pde : Nat → Option PageTable} {index : Nat} {pt : PageTable} {extra : List Nat}
    (inside : index < 768) (table : pt.pages.Perm (extra ++ tablePages (pde index))) :
    (tables (Function.update pde index (some pt))).Perm (extra ++ tables pde) := by
  unfold tables
  apply flat_map_changed inside
  · intro other different
    rw [Function.update_of_ne different]
  · rw [Function.update_self]
    exact table

theorem set_pte_pages {pt : PageTable} {upage kpage : Nat} {extra : List Nat}
    (user : upage < 768 * 1024) (unmapped : pt.pte (upage % 1024) = none)
    (table : pt.pages.Perm (extra ++ tablePages (pd.pde (upage / 1024)))) :
    (pd.setPte pt upage kpage).pages.Perm (kpage :: extra ++ pd.pages) := by
  have grownTable : (PageTable.mk pt.page (Function.update pt.pte (upage % 1024)
      (some kpage))).pages.Perm (kpage :: extra ++ tablePages (pd.pde (upage / 1024))) := by
    have grown := @frames_set pt.pte _ kpage (Nat.mod_lt upage (by decide)) unmapped
    exact (grown.append_right [pt.page]).trans (table.cons kpage)
  have grown := @tables_set pd.pde _ _ _ (by omega) grownTable
  unfold Pagedir.pages
  rw [← List.append_assoc]
  exact grown.append_right [pd.page]

end Pagedirs

section Loading

variable {w : World} {memory : Memory} {blocks : List Nat} {pd : Pagedir}

theorem pagedir_set_page_ensures {upage kpage : Nat} (user : upage < 768 * 1024)
    (unmapped : pd.mapped upage = false) (owns : Owns memory (kpage :: (pd.pages ++ blocks))) :
    Ensures (pagedirSetPage w pd upage kpage) memory fun result next =>
      result.1 = true ∧ Owns next (result.2.pages ++ blocks) ∨
        result.1 = false ∧ Owns next (kpage :: (result.2.pages ++ blocks)) := by
  unfold pagedirSetPage
  unfold Pagedir.mapped at unmapped
  cases entry : pd.pde (upage / 1024) with
  | some pt =>
      rw [entry] at unmapped
      have clear : pt.pte (upage % 1024) = none := by simpa using unmapped
      have same : pt.pages.Perm ([] ++ tablePages (pd.pde (upage / 1024))) := by
        rw [entry, List.nil_append]
        exact List.Perm.refl _
      have grown := @set_pte_pages pd pt upage kpage [] user clear same
      rw [List.cons_append, List.nil_append] at grown
      apply ensures_pure
      exact .inl ⟨rfl, owns_perm owns (grown.symm.append_right blocks)⟩
  | none =>
      refine ensures_bind (ensures_returns (get_page_returns owns)) ?_
      rintro page next ⟨⟨_, rfl, same⟩ | ⟨_, rfl, more⟩, _⟩
      · apply ensures_pure
        exact .inr ⟨rfl, same⟩
      · have empty : frames (fun _ => none) = [] := by
          unfold frames
          exact List.flatMap_eq_nil_iff.mpr fun _ _ => rfl
        have table : (PageTable.mk memory.asked fun _ => none).pages.Perm
            ([memory.asked] ++ tablePages (pd.pde (upage / 1024))) := by
          unfold PageTable.pages
          rw [entry, empty]
          exact List.Perm.refl _
        have grown := @set_pte_pages pd _ upage kpage [memory.asked] user rfl table
        have swapped := owns_perm more (List.Perm.swap kpage memory.asked _)
        apply ensures_pure
        exact .inl ⟨rfl, owns_perm swapped (grown.symm.append_right blocks)⟩

theorem install_page_ensures {upage kpage : Nat} (owns : Owns memory (kpage :: (pd.pages ++ blocks))) :
    Ensures (installPage w pd upage kpage) memory fun result next =>
      result.1 = true ∧ Owns next (result.2.pages ++ blocks) ∨
        result.1 = false ∧ Owns next (kpage :: (result.2.pages ++ blocks)) := by
  unfold installPage
  split
  · exact ensures_throw
  · next below =>
    split
    · exact ensures_pure (.inr ⟨rfl, owns⟩)
    · next clear =>
      apply pagedir_set_page_ensures _ (Bool.not_eq_true _ ▸ clear) owns
      unfold physBase pgSize at below
      omega

/-- A page that was obtained is mapped or released. -/
theorem load_pages_ensures (pages position upage readBytes : Nat)
    (owns : Owns memory (pd.pages ++ blocks)) :
    Ensures (loadPages w pages pd position upage readBytes) memory fun result next =>
      Owns next (result.2.pages ++ blocks) := by
  induction pages generalizing memory pd position upage readBytes with
  | zero => exact ensures_pure owns
  | succ pages ih =>
      unfold loadPages
      refine ensures_bind (ensures_returns (get_page_returns owns)) ?_
      rintro page next ⟨⟨_, rfl, same⟩ | ⟨_, rfl, more⟩, _⟩
      · exact ensures_pure same
      refine ensures_bind (ensures_returns (file_read_returns more)) ?_
      rintro bytes next ⟨_, read⟩
      split
      · refine ensures_bind (ensures_returns (free_page_returns read)) ?_
        exact fun _ _ left => ensures_pure left
      · refine ensures_bind (install_page_ensures read) ?_
        rintro ⟨installed, grown⟩ next (⟨rfl, mapped⟩ | ⟨rfl, unmapped⟩)
        · exact ih _ _ _ mapped
        · refine ensures_bind (ensures_returns (free_page_returns unmapped)) ?_
          exact fun _ _ left => ensures_pure left

theorem setup_stack_ensures (owns : Owns memory (pd.pages ++ blocks)) :
    Ensures (setupStack w pd) memory fun result next => Owns next (result.2.pages ++ blocks) := by
  unfold setupStack
  refine ensures_bind (ensures_returns (get_page_returns owns)) ?_
  rintro page next ⟨⟨_, rfl, same⟩ | ⟨_, rfl, more⟩, _⟩
  · exact ensures_pure same
  · refine ensures_bind (install_page_ensures more) ?_
    rintro ⟨installed, grown⟩ next (⟨rfl, mapped⟩ | ⟨rfl, unmapped⟩)
    · exact ensures_pure mapped
    · refine ensures_bind (ensures_returns (free_page_returns unmapped)) ?_
      exact fun _ _ left => ensures_pure left

theorem load_segment_ensures (ofs upage readBytes zeroBytes : Nat)
    (owns : Owns memory (pd.pages ++ blocks)) :
    Ensures (loadSegment w pd ofs upage readBytes zeroBytes) memory fun result next =>
      Owns next (result.2.pages ++ blocks) := by
  unfold loadSegment
  split
  · exact ensures_throw
  · exact load_pages_ensures _ _ _ _ owns

theorem load_phdr_ensures (phdr : List Byte) (owns : Owns memory (pd.pages ++ blocks)) :
    Ensures (loadPhdr w pd phdr) memory fun result next => Owns next (result.2.pages ++ blocks) := by
  unfold loadPhdr
  split
  · exact ensures_pure owns
  · exact ensures_pure owns
  · exact load_segment_ensures _ _ _ _ owns

theorem load_phdrs_ensures (headers fileOfs : Nat) (owns : Owns memory (pd.pages ++ blocks)) :
    Ensures (loadPhdrs w headers pd fileOfs) memory fun result next =>
      Owns next (result.2.pages ++ blocks) := by
  induction headers generalizing memory pd fileOfs with
  | zero => exact ensures_pure owns
  | succ headers ih =>
      unfold loadPhdrs
      split
      · exact ensures_pure owns
      · refine ensures_bind (ensures_returns (file_read_returns owns)) ?_
        rintro phdr next ⟨_, read⟩
        split
        · exact ensures_pure read
        · refine ensures_bind (load_phdr_ensures phdr read) ?_
          rintro ⟨loaded, grown⟩ next more
          cases loaded with
          | true => exact ih _ more
          | false => exact ensures_pure more

def pagedirPages : Option Pagedir → List Nat
  | none => []
  | some pd => pd.pages

theorem pagedir_create_returns (owns : Owns memory blocks) :
    Returns (pagedirCreate w) memory fun pd next =>
      (w.available memory.asked = false ∧ pd = none ∧ Owns next blocks ∨
        ∃ new, w.available memory.asked = true ∧ pd = some new ∧ Owns next (new.pages ++ blocks)) ∧
      next.opens = memory.opens ∧ next.reads = memory.reads := by
  refine returns_bind (get_page_returns owns) ?_
  rintro page next ⟨⟨unavailable, rfl, same⟩ | ⟨available, rfl, more⟩, _, opens, reads⟩
  · exact returns_pure ⟨.inl ⟨unavailable, rfl, same⟩, opens, reads⟩
  · refine returns_pure ⟨.inr ⟨_, available, rfl, ?_⟩, opens, reads⟩
    have empty : tables (fun _ => none) = [] := by
      unfold tables
      exact List.flatMap_eq_nil_iff.mpr fun _ _ => rfl
    unfold Pagedir.pages
    rw [empty]
    exact more

/-- What `load` leaves belongs to the page directory, and it does not come back exactly
when it rejects the header. -/
theorem load_ensures (cmdstr : List Byte) (owns : Owns memory blocks) :
    Ensures (load w cmdstr) memory fun result next =>
      Owns next (pagedirPages result.2 ++ blocks) ∧
        (result.1 = .exited ↔ Rejects w memory.asked memory.opens memory.reads) := by
  unfold load Rejects
  refine ensures_bind (ensures_returns (pagedir_create_returns owns)) ?_
  rintro pd next ⟨⟨unavailable, rfl, same⟩ | ⟨new, available, rfl, more⟩, opens, reads⟩
  · exact ensures_pure ⟨same, by simp [unavailable]⟩
  dsimp only
  split
  · exact ensures_throw
  refine ensures_bind (filesys_open_ensures more) ?_
  rintro found opened ⟨outcome, stillOwns, sameReads⟩
  rw [opens] at outcome
  rw [reads] at sameReads
  cases found with
  | false =>
      have missing : w.lookup memory.opens ≠ .found := by
        intro isFound
        cases outcome.mpr isFound
      exact ensures_pure ⟨stillOwns, by simp [missing]⟩
  | true =>
      have isFound := outcome.mp rfl
      refine ensures_bind (ensures_returns (file_read_returns stillOwns)) ?_
      rintro ehdr read ⟨bytes, readOwns⟩
      rw [sameReads, List.drop_zero] at bytes
      cases okay : ehdrOk ehdr with
      | false =>
          rw [bytes] at okay
          exact ensures_pure ⟨readOwns, by simp [available, isFound, okay]⟩
      | true =>
          have accepted : ehdrOk (w.content.take (min 52 (w.readLimit memory.reads))) = true := by
            rw [← bytes]
            exact okay
          refine ensures_bind (load_phdrs_ensures _ _ readOwns) ?_
          rintro ⟨loaded, grown⟩ next loadedOwns
          cases loaded with
          | false => exact ensures_pure ⟨loadedOwns, by simp [accepted]⟩
          | true =>
              refine ensures_bind (setup_stack_ensures loadedOwns) ?_
              rintro ⟨stack, full⟩ next stackOwns
              cases stack with
              | false => exact ensures_pure ⟨stackOwns, by simp [accepted]⟩
              | true =>
                  refine ensures_bind (filesys_open_ensures stackOwns) ?_
                  rintro again next ⟨_, lastOwns, _⟩
                  cases again with
                  | false => exact ensures_throw
                  | true => exact ensures_pure ⟨lastOwns, by simp [accepted]⟩

theorem process_exit_returns {pd : Option Pagedir} (owns : Owns memory (pagedirPages pd ++ blocks)) :
    Returns (processExit pd) memory fun _ next => Owns next blocks := by
  cases pd with
  | none => exact returns_pure owns
  | some pd => exact pagedir_destroy_returns owns

theorem start_process_ensures {command thread : Nat} (cmdstr : List Byte)
    (owns : Owns memory (command :: thread :: blocks)) :
    Ensures (startProcess w command thread cmdstr) memory fun _ next =>
      (Rejects w memory.asked memory.opens memory.reads ∧ Owns next (command :: blocks)) ∨
        ¬Rejects w memory.asked memory.opens memory.reads ∧ Owns next blocks := by
  have finish : ∀ {pd : Option Pagedir} {rest : List Nat} {state : Memory}
      {post : Unit → Memory → Prop}, Owns state (pagedirPages pd ++ thread :: rest) →
      (∀ next, Owns next rest → post () next) →
      Ensures (do processExit pd; freePage thread) state post := by
    intro pd rest state post ownsAll holds
    refine ensures_bind (ensures_returns (process_exit_returns ownsAll)) ?_
    intro _ next left
    refine ensures_returns (returns_mono (free_page_returns left) ?_)
    exact fun _ last done => holds last done
  unfold startProcess
  refine ensures_bind (load_ensures cmdstr owns) ?_
  rintro ⟨loaded, pd⟩ next ⟨after, exits⟩
  dsimp only at after exits ⊢
  have commandFirst : Owns next (command :: (pagedirPages pd ++ thread :: blocks)) :=
    owns_perm after List.perm_middle
  cases loaded with
  | exited =>
      have swapped : Owns next (pagedirPages pd ++ thread :: command :: blocks) :=
        owns_perm after ((List.Perm.swap thread command blocks).append_left _)
      exact finish swapped fun _ left => .inl ⟨exits.mp rfl, left⟩
  | failed =>
      refine ensures_bind (ensures_returns (free_page_returns commandFirst)) ?_
      intro _ state released
      exact finish released fun _ left => .inr ⟨fun rejects => (nomatch exits.mpr rejects), left⟩
  | success =>
      refine ensures_bind (ensures_returns (free_page_returns commandFirst)) ?_
      intro _ state released
      exact finish released fun _ left => .inr ⟨fun rejects => (nomatch exits.mpr rejects), left⟩

/-- The command's copy stays behind exactly when the child rejects the header. -/
theorem process_execute_ensures (command : List Byte) (owns : Owns memory blocks) :
    Ensures (processExecute w command) memory fun _ next =>
      (w.available memory.asked = true ∧ w.available (memory.asked + 1) = true ∧
          Rejects w (memory.asked + 2) memory.opens memory.reads) ∧
          Owns next (memory.asked :: blocks) ∨
        ¬(w.available memory.asked = true ∧ w.available (memory.asked + 1) = true ∧
          Rejects w (memory.asked + 2) memory.opens memory.reads) ∧ Owns next blocks := by
  unfold processExecute
  refine ensures_bind (ensures_returns (get_page_returns owns)) ?_
  rintro page next ⟨⟨unavailable, rfl, same⟩ | ⟨available, rfl, copied⟩, asked, opens, reads⟩
  · exact ensures_pure (.inr ⟨by simp [unavailable], same⟩)
  refine ensures_bind (ensures_returns (get_page_returns copied)) ?_
  rw [asked]
  rintro page created ⟨⟨unavailable, rfl, same⟩ | ⟨threadAvailable, rfl, owned⟩, asked', opens', reads'⟩
  · refine ensures_returns (returns_mono (free_page_returns same) ?_)
    exact fun _ _ left => .inr ⟨by simp [unavailable], left⟩
  · have ordered := owns_perm owned (List.Perm.swap memory.asked (memory.asked + 1) blocks)
    intro value final ran
    have started := start_process_ensures (command.take (pgSize - 1)) ordered value final ran
    rw [asked', opens', reads', opens, reads] at started
    rcases started with ⟨rejects, left⟩ | ⟨accepts, left⟩
    · exact .inl ⟨⟨available, threadAvailable, rejects⟩, left⟩
    · exact .inr ⟨fun all => accepts all.2.2, left⟩

end Loading

theorem conserved_iff {memory : Memory} {blocks : List Nat} (owns : Owns memory blocks) :
    Conserved memory ↔ blocks = [] := by
  constructor
  · rintro ⟨none_, _⟩
    have perm := owns.perm
    rw [none_] at perm
    exact List.nil_perm.mp perm
  · rintro rfl
    exact ⟨List.perm_nil.mp owns.perm, owns.clean⟩

theorem owns_nothing : Owns {} [] := ⟨List.Perm.refl _, List.nodup_nil, nofun, rfl⟩

/-- `sys_exec` never releases its own copy of the command. -/
theorem sys_exec_ensures (w : World) (command : List Byte) :
    Ensures (sysExec w command) {} fun _ next => ∃ rest, Owns next (rest ++ [0]) := by
  unfold sysExec
  refine ensures_bind (ensures_returns (get_page_returns owns_nothing)) ?_
  rintro page next ⟨⟨_, rfl, same⟩ | ⟨_, rfl, copied⟩, _⟩
  · exact ensures_throw
  refine ensures_bind (filesys_open_ensures copied) ?_
  rintro found opened ⟨_, stillOwns, _⟩
  cases found with
  | false => exact ensures_pure ⟨[], stillOwns⟩
  | true =>
      intro value final ran
      rcases process_execute_ensures command stillOwns value final ran with ⟨_, left⟩ | ⟨_, left⟩
      · exact ⟨[_], left⟩
      · exact ⟨[], left⟩

/-- Everything is released exactly once if and only if the kernel itself starts the process
and the header check does not send it through `sys_exit(12)`. -/
theorem exec_conserves_iff (w : World) (caller : Caller) (command : List Byte) (final : Memory)
    (ran : exec w caller command {} = .ok () final) :
    Conserved final ↔ caller = .runTask ∧ ¬HeaderRejected w := by
  cases caller with
  | runTask =>
      rcases process_execute_ensures command owns_nothing () final ran with ⟨rejected, left⟩ | ⟨fine, left⟩
      · rw [conserved_iff left]
        exact ⟨nofun, fun ⟨_, accepted⟩ => absurd rejected accepted⟩
      · rw [conserved_iff left]
        exact ⟨fun _ => ⟨rfl, fine⟩, fun _ => rfl⟩
  | syscallHandler =>
      obtain ⟨rest, left⟩ := sys_exec_ensures w command () final ran
      rw [conserved_iff left]
      constructor
      · intro impossible
        exact absurd impossible (List.append_ne_nil_of_right_ne_nil _ (List.cons_ne_nil _ _))
      · rintro ⟨impossible, _⟩
        cases impossible

def plentifulWorld : World where
  available _ := true
  lookup _ := .found
  readLimit _ := 4096
  content := zeroPageProgram

/-- The kernel runs that program. -/
theorem exec_conserves_zero_page :
    ∃ final, exec plentifulWorld .runTask [0x61] {} = .ok () final ∧ final.asked = 7 ∧
      Conserved final := by
  have runs : (do exec plentifulWorld .runTask [0x61]; return (← get).asked).run' {} = some 7 := by
    decide +kernel
  obtain ⟨last, ran⟩ := ok_of_run runs
  obtain ⟨_, final, first, rest⟩ := bind_ok ran
  injection rest with asked _
  refine ⟨final, first, asked, (exec_conserves_iff plentifulWorld .runTask [0x61] final first).mpr ?_⟩
  refine ⟨rfl, ?_⟩
  rintro ⟨_, _, _, _, rejected⟩
  exact absurd rejected (by decide)

def emptyWorld : World where
  available _ := true
  lookup _ := .absent
  readLimit _ := 4096
  content := []

/-- `exec` of a file that does not exist. -/
theorem sys_exec_leaks_copy :
    exec emptyWorld .syscallHandler [0x61] {} = .ok () { asked := 1, opens := 1, live := [0] } ∧
      ¬Conserved { asked := 1, opens := 1, live := [0] } :=
  ⟨rfl, fun conserved => by cases conserved.1⟩

end UtSystems.Userprog.ExecMemory
