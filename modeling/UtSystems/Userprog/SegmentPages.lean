import UtSystems.Userprog.SegmentLoading

/-!
# The pages of a segment

What one turn of the loop of `load_segment` does to the memory and to the page directory, and
what the loop has done after each turn.
-/

namespace UtSystems.Userprog.SegmentPages

open Lib.Bytes
open Threads.PageAllocator (Panic)
open Userprog.UserMemory hiding lookupPage pagedirGetPage pteCreateUser load
open Userprog.PageDirectories
open Userprog.PageDirectoryDestroy (freePages palloc_free_page_live)
open Userprog.PageDirectoryRuns Userprog.SegmentLoading

set_option autoImplicit false

section Bytes

variable {s : Store} {page : Addr}

theorem page_byte_words (bytes : Nat → Byte) {ofs : Nat} (inside : ofs < pgSize) :
    pageByte (pageWords bytes) ofs = bytes ofs := by
  unfold pgSize at inside
  unfold pageByte pageWords
  have index : ofs / 4 % 1024 = ofs / 4 := Nat.mod_eq_of_lt (by omega)
  simp only [index]
  have read := word_byte_join (fun index => bytes (4 * (ofs / 4) + index))
    (show ofs % 4 < 4 by omega)
  rw [Nat.add_zero, show 4 * (ofs / 4) + ofs % 4 = ofs by omega] at read
  exact read

theorem copy_to_byte (start : Nat) (bytes : List Byte) {ofs : Nat} (inside : ofs < pgSize) :
    pageByte ((copyTo page start bytes s).memory page) ofs =
      overwrite (pageByte (s.memory page)) start bytes ofs := by
  unfold copyTo
  rw [set_page_self, page_byte_words _ inside]

end Bytes

section Install

variable {k : Kernel} {pd upage kpage : Addr} {writable : Bool} {given : Option Addr}
  {s middle next : Store} {map : PageMap}

/-- A page in use that is neither the directory nor one of its page tables. -/
def Foreign (pd : Addr) (s : Store) (page : Addr) : Prop :=
  s.live page = true ∧ page ≠ pd ∧ page ∉ s.tables

def Undisturbed (pd : Addr) (s next : Store) : Prop :=
  ∀ page, Foreign pd s page → Foreign pd next page ∧ next.memory page = s.memory page

theorem undisturbed_trans (first : Undisturbed pd s middle) (second : Undisturbed pd middle next) :
    Undisturbed pd s next := by
  intro page foreign
  obtain ⟨between, same⟩ := first page foreign
  obtain ⟨after, again⟩ := second page between
  exact ⟨after, again.trans same⟩

theorem tabled_undisturbed {pde : Index} {pt : Addr}
    (tabled : Tabled k pd pde given s pt next) : Undisturbed pd s next := by
  cases tabled with
  | found => exact fun page foreign => ⟨foreign, rfl⟩
  | added fresh missing obtained =>
      intro page foreign
      obtain ⟨live, notPd, notTable⟩ := foreign
      have notPt : page ≠ pt := by
        intro same
        rw [same, fresh.2] at live
        cases live
      refine ⟨⟨?_, notPd, ?_⟩, add_table_others notPd notPt⟩
      · change (if page = pt then true else s.live page) = true
        rw [live]
        exact ite_self true
      · intro member
        cases member with
        | head => exact notPt rfl
        | tail _ member => exact notTable member

theorem set_word_undisturbed {pt : Addr} (member : pt ∈ s.tables) (index : Index) (value : Word) :
    Undisturbed pd s (s.setWord pt index value) := by
  intro page foreign
  have different : page ≠ pt := fun same => foreign.2.2 (same ▸ member)
  exact ⟨foreign, set_word_other index value different⟩

theorem tabled_entries (rep : Represents k pd s map) {pde other pte : Index} {pt : Addr}
    (tabled : Tabled k pd pde given s pt next) (low : other.val < 768) :
    entryAt next pd other pte = entryAt s pd other pte := by
  cases tabled with
  | found => rfl
  | added fresh missing obtained => exact add_table_entries rep missing fresh low

theorem entries_outside (rep : Represents k pd s map) (notPd : kpage ≠ pd)
    (notTable : kpage ∉ s.tables) (memory : ∀ page, page ≠ kpage → next.memory page = s.memory page)
    {pde pte : Index} (low : pde.val < 768) : entryAt next pd pde pte = entryAt s pd pde pte := by
  unfold entryAt
  rw [memory pd (Ne.symm notPd)]
  by_cases empty : s.memory pd pde = 0
  · rw [if_pos empty, if_pos empty]
  · obtain ⟨pt, member, _, here, _⟩ := table_of rep low empty
    have different : pt ≠ kpage := fun same => notTable (same ▸ member)
    rw [if_neg empty, if_neg empty, here, memory pt different]

/-- What a call of `install_page` has changed. -/
structure Installed (pd upage kpage : Addr) (writable : Bool) (s next : Store) : Prop where
  undisturbed : Undisturbed pd s next
  entries : ∀ pde pte : Index, pde.val < 768 → entryAt next pd pde pte =
    if pageNumber pde pte = pgNo upage then userEntry kpage writable else entryAt s pd pde pte

theorem install_page_cases (rep : Represents k pd s map) (valid : SetArguments k upage kpage)
    (fresh : ∀ pt, given = some pt → Fresh k s pt) :
    (installPage k pd upage kpage writable given s = .ok (false, s) ∧
        (given = none ∨ map (pgNo upage) ≠ none)) ∨
      map (pgNo upage) = none ∧ ∃ next,
        installPage k pd upage kpage writable given s = .ok (true, next) ∧
        Installed pd upage kpage writable s next := by
  rw [install_page_eq rep valid.user]
  by_cases free : map (pgNo upage) = none
  · rw [if_pos free]
    rcases @set_page_stores k pd upage kpage writable given s map rep valid fresh free
      with failed | stored
    · exact .inl ⟨failed.2.2, .inl failed.1⟩
    · obtain ⟨pt, middle, kept, tabled, member, entry, returned⟩ := stored
      refine .inr ⟨free, _, returned, ?_, ?_⟩
      · exact undisturbed_trans (tabled_undisturbed tabled) (set_word_undisturbed member _ _)
      · intro pde pte low
        rw [set_entry_entries kept (user_half_vaddr valid.user) member entry low,
          page_number_vaddr, tabled_entries rep tabled low]
  · rw [if_neg free]
    exact .inl ⟨rfl, .inr free⟩

end Install

/-- A page that begins with so many bytes of the file from that position on, and is zero after
them. -/
def Holds (file : ElfFile) (pos size : Nat) (words : Index → Word) : Prop :=
  (∀ ofs < size, file.content[pos + ofs]? = some (pageByte words ofs)) ∧
    ∀ ofs, size ≤ ofs → ofs < pgSize → pageByte words ofs = 0

section Turn

variable {ax : BitVec 16} {k : Kernel} {pd kpage : Addr} {env : Environment k} {file : ElfFile}
  {writable : Bool} {l : Loading} {s next : Store} {map : PageMap}

theorem page_read_value (l : Loading) :
    (pageReadBytes l).toNat = min l.readBytes.toNat pgSize := by
  have size : pageSize.toNat = pgSize := rfl
  unfold pageReadBytes
  split
  · next less =>
    rw [BitVec.lt_def] at less
    omega
  · next more =>
    rw [BitVec.lt_def] at more
    omega

theorem page_zero_value (l : Loading) :
    (pageZeroBytes l).toNat = pgSize - min l.readBytes.toNat pgSize := by
  have size : pageSize.toNat = pgSize := rfl
  have page : pgSize = 4096 := rfl
  unfold pageZeroBytes
  rw [BitVec.toNat_sub, page_read_value, size]
  omega

theorem file_read_get {call pos size ofs : Nat} (inside : ofs < (fileRead env file call pos size).length) :
    file.content[pos + ofs]? = some (fileRead env file call pos size)[ofs] := by
  rw [← List.getElem?_eq_getElem inside]
  have lengths : ofs < env.delivered call ∧ ofs < size := by
    unfold fileRead at inside
    rw [List.length_take, List.length_take] at inside
    omega
  unfold fileRead
  rw [List.getElem?_take_of_lt lengths.1, List.getElem?_take_of_lt lengths.2, List.getElem?_drop]

/-- The page after `file_read` and `memset`. -/
theorem filled_page_holds {call pos size : Nat} (bounded : size ≤ pgSize)
    (whole : (fileRead env file call pos size).length = size) :
    Holds file pos size ((copyTo kpage size (List.replicate (pgSize - size) 0)
      (copyTo kpage 0 (fileRead env file call pos size) s)).memory kpage) := by
  constructor
  · intro ofs early
    have inside : ofs < (fileRead env file call pos size).length := by omega
    rw [copy_to_byte _ _ (by omega), overwrite_outside (.inl early), copy_to_byte _ _ (by omega)]
    have written := @overwrite_inside _ (pageByte (s.memory kpage)) 0 _ ofs inside
    rw [Nat.zero_add] at written
    rw [written]
    exact file_read_get inside
  · intro ofs late inPage
    have inside : ofs - size < (List.replicate (pgSize - size) (0 : Byte)).length := by
      rw [List.length_replicate]
      omega
    rw [copy_to_byte _ _ inPage]
    have written := @overwrite_inside _ (pageByte ((copyTo kpage 0
      (fileRead env file call pos size) s).memory kpage)) size _ (ofs - size) inside
    rw [Nat.add_sub_cancel' late] at written
    rw [written, List.getElem_replicate]

theorem take_live (s : Store) (page : Addr) : (s.take page).live page = true := if_pos rfl

theorem taken_undisturbed (fresh : Fresh k s kpage)
    (memory : ∀ page, page ≠ kpage → next.memory page = s.memory page)
    (live : next.live = (s.take kpage).live) (tables : next.tables = s.tables) :
    Undisturbed pd s next := by
  intro page foreign
  obtain ⟨used, notPd, notTable⟩ := foreign
  have different : page ≠ kpage := by
    intro same
    rw [same, fresh.2] at used
    cases used
  refine ⟨⟨?_, notPd, tables ▸ notTable⟩, memory page different⟩
  rw [live]
  change (if page = kpage then true else s.live page) = true
  rw [used]
  exact ite_self true

/-- Why a turn may fail. -/
def Obstructed (env : Environment k) (file : ElfFile) (map : PageMap) (l : Loading) : Prop :=
  env.palloc (2 * l.turns) l.store = none ∨
    (fileRead env file l.turns l.pos (pageReadBytes l).toNat).length ≠ (pageReadBytes l).toNat ∨
    map (pgNo l.upage) ≠ none ∨
    ∃ kpage after, env.palloc (2 * l.turns) l.store = some kpage ∧
      after.live = (l.store.take kpage).live ∧ env.palloc (2 * l.turns + 1) after = none

/-- What a turn that succeeds has done. -/
structure Advanced (pd : Addr) (file : ElfFile) (writable : Bool) (l next : Loading)
    (kpage : Addr) : Prop where
  upage : next.upage = l.upage + pageSize
  readBytes : next.readBytes = l.readBytes - pageReadBytes l
  zeroBytes : next.zeroBytes = l.zeroBytes - pageZeroBytes l
  pos : next.pos = l.pos + (pageReadBytes l).toNat
  undisturbed : Undisturbed pd l.store next.store
  frame : Foreign pd next.store kpage
  holds : Holds file l.pos (pageReadBytes l).toNat (next.store.memory kpage)
  entries : ∀ pde pte : Index, pde.val < 768 → entryAt next.store pd pde pte =
    if pageNumber pde pte = pgNo l.upage then userEntry kpage writable
    else entryAt l.store pd pde pte

theorem give_back_fails {ramPages : Nat} (isPage : IsPage ramPages kpage)
    (live : s.live kpage = true) : ∃ after, giveBack kpage s = .ok (.failed after) := by
  refine ⟨freePages [kpage] s, ?_⟩
  unfold giveBack
  rw [palloc_free_page_live isPage live]
  rfl

/-! ## The turn by its stores -/

/-- The page after `file_read`. -/
def readStore (env : Environment k) (file : ElfFile) (l : Loading) (kpage : Addr) : Store :=
  copyTo kpage 0 (fileRead env file l.turns l.pos (pageReadBytes l).toNat) (l.store.take kpage)

/-- The page after `memset`. -/
def clearedStore (env : Environment k) (file : ElfFile) (l : Loading) (kpage : Addr) : Store :=
  copyTo kpage (pageReadBytes l).toNat (List.replicate (pageZeroBytes l).toNat 0)
    (readStore env file l kpage)

theorem load_page_short (got : env.palloc (2 * l.turns) l.store = some kpage)
    (short : (fileRead env file l.turns l.pos (pageReadBytes l).toNat).length ≠
      (pageReadBytes l).toNat) :
    loadPage env pd file writable l = giveBack kpage (readStore env file l kpage) := by
  unfold loadPage
  rw [got]
  exact if_pos short

theorem load_page_installs (got : env.palloc (2 * l.turns) l.store = some kpage)
    (whole : (fileRead env file l.turns l.pos (pageReadBytes l).toNat).length =
      (pageReadBytes l).toNat) {result : Bool × Store}
    (returned : installPage k pd l.upage kpage writable
      (env.palloc (2 * l.turns + 1) (clearedStore env file l kpage)) (clearedStore env file l kpage) =
        .ok result) :
    loadPage env pd file writable l =
      if result.1 then
        .ok (.advanced
          { upage := l.upage + pageSize
            readBytes := l.readBytes - pageReadBytes l
            zeroBytes := l.zeroBytes - pageZeroBytes l
            pos := l.pos + (fileRead env file l.turns l.pos (pageReadBytes l).toNat).length
            turns := l.turns + 1
            store := result.2 })
      else giveBack kpage result.2 := by
  have notShort := not_not.mpr whole
  unfold loadPage
  rw [got]
  refine (if_neg notShort).trans ?_
  change (installPage k pd l.upage kpage writable
    (env.palloc (2 * l.turns + 1) (clearedStore env file l kpage))
    (clearedStore env file l kpage) >>= _) = _
  rw [returned]
  cases result with
  | mk done next =>
      cases done with
      | false => rfl
      | true => rfl

theorem cleared_page_other {page : Addr} (different : page ≠ kpage) :
    (clearedStore env file l kpage).memory page = l.store.memory page :=
  (set_page_other _ different).trans (set_page_other _ different)

theorem cleared_reached (reached : Reached ax k pd l.store map) (fresh : Fresh k l.store kpage) :
    Reached ax k pd (clearedStore env file l kpage) map ∧
      Foreign pd (clearedStore env file l kpage) kpage := by
  have rep := reached_represents reached
  obtain ⟨notPd, notTable, notCommon⟩ := fresh_not_ours rep fresh
  have readReached : Reached ax k pd (readStore env file l kpage) map :=
    .elsewhere reached (.obtained _ fresh)
  have foreign : kpage ∉ pd :: (readStore env file l kpage).tables := by
    intro member
    cases member with
    | head => exact notPd rfl
    | tail _ member => exact notTable member
  have notInit : kpage ≠ k.initPageDir := fun same => notCommon (same ▸ rep.common)
  exact ⟨.elsewhere readReached (.stored _ foreign notInit), take_live l.store kpage, notPd, notTable⟩

theorem cleared_holds (whole : (fileRead env file l.turns l.pos (pageReadBytes l).toNat).length =
      (pageReadBytes l).toNat) :
    Holds file l.pos (pageReadBytes l).toNat ((clearedStore env file l kpage).memory kpage) := by
  have bounded : (pageReadBytes l).toNat ≤ pgSize := by
    rw [page_read_value]
    exact Nat.min_le_right _ _
  have zeros : (pageZeroBytes l).toNat = pgSize - (pageReadBytes l).toNat := by
    rw [page_zero_value, page_read_value]
  have holds := @filled_page_holds k kpage env file (l.store.take kpage) l.turns l.pos
    (pageReadBytes l).toNat bounded whole
  rw [← zeros] at holds
  exact holds

theorem load_page_cases (reached : Reached ax k pd l.store map) (aligned : pgOfs l.upage = 0)
    (user : isUserVaddr l.upage = true) :
    ((∃ after, loadPage env pd file writable l = .ok (.failed after)) ∧
        Obstructed env file map l) ∨
      map (pgNo l.upage) = none ∧ ∃ kpage next,
        loadPage env pd file writable l = .ok (.advanced next) ∧
        Reached ax k pd next.store (map.update (pgNo l.upage) (some kpage)) ∧
        Advanced pd file writable l next kpage := by
  cases got : env.palloc (2 * l.turns) l.store with
  | none =>
      refine .inl ⟨⟨l.store, ?_⟩, .inl got⟩
      unfold loadPage
      rw [got]
      rfl
  | some kpage =>
      have rep := reached_represents reached
      have fresh := env.fresh _ _ _ got
      obtain ⟨notPd, notTable, _⟩ := fresh_not_ours rep fresh
      by_cases short : (fileRead env file l.turns l.pos (pageReadBytes l).toNat).length ≠
          (pageReadBytes l).toNat
      · obtain ⟨after, given⟩ := @give_back_fails kpage (readStore env file l kpage) k.ramPages
          fresh.1 (take_live l.store kpage)
        refine .inl ⟨⟨after, ?_⟩, .inr (.inl short)⟩
        rw [load_page_short got short]
        exact given
      · have whole := not_not.mp short
        have valid : SetArguments k l.upage kpage := ⟨aligned, user, fresh.1⟩
        have tableFresh : ∀ pt,
            env.palloc (2 * l.turns + 1) (clearedStore env file l kpage) = some pt →
            Fresh k (clearedStore env file l kpage) pt := fun pt => env.fresh _ _ pt
        obtain ⟨clearedReached, foreign⟩ :=
          @cleared_reached ax k pd kpage env file l map reached fresh
        rcases @install_page_cases k pd l.upage kpage writable _ (clearedStore env file l kpage) map
          (reached_represents clearedReached) valid tableFresh with failed | installed
        · obtain ⟨returned, reason⟩ := failed
          obtain ⟨after, given⟩ := @give_back_fails kpage (clearedStore env file l kpage)
            k.ramPages fresh.1 foreign.1
          refine .inl ⟨⟨after, ?_⟩, ?_⟩
          · rw [load_page_installs got whole returned]
            exact given
          · rcases reason with noPage | mapped
            · exact .inr (.inr (.inr ⟨kpage, clearedStore env file l kpage, got, rfl, noPage⟩))
            · exact .inr (.inr (.inl mapped))
        · obtain ⟨free, next, returned, done⟩ := installed
          have untouched : Undisturbed pd l.store (clearedStore env file l kpage) :=
            taken_undisturbed fresh (fun _ different => cleared_page_other different) rfl rfl
          obtain ⟨frame, same⟩ := done.undisturbed kpage foreign
          refine .inr ⟨free, kpage, _, load_page_installs got whole returned,
            .install clearedReached tableFresh returned, ?_⟩
          constructor
          case upage => rfl
          case readBytes => rfl
          case zeroBytes => rfl
          case pos => exact congrArg (l.pos + ·) whole
          case undisturbed => exact undisturbed_trans untouched done.undisturbed
          case frame => exact frame
          case holds =>
            simp only [same]
            exact cleared_holds whole
          case entries =>
            intro pde pte low
            rw [done.entries pde pte low, entries_outside rep notPd notTable _ low]
            exact fun _ different => cleared_page_other different

end Turn

end UtSystems.Userprog.SegmentPages
