import UtSystems.Userprog.SegmentPages

/-!
# Segments that are loaded

`load_segment` for a header that `validate_segment` accepts: the loop ends after at most so many
turns as the segment has pages, and the memory of the process is then as the header asks.
-/

namespace UtSystems.Userprog.LoadedSegments

open Lib.Bytes
open Threads.PageAllocator (Panic)
open Userprog.UserMemory hiding lookupPage pagedirGetPage pteCreateUser load
open Userprog.PageDirectories Userprog.PageDirectoryRuns Userprog.SegmentLoading
open Userprog.SegmentPages

set_option autoImplicit false

/-- A segment of so many pages. -/
structure Fits (segment : Segment) (pages : Nat) : Prop where
  aligned : segment.upage.toNat % pgSize = 0
  ends : segment.upage.toNat + pages * pgSize ≤ physBase
  total : segment.readBytes.toNat + segment.zeroBytes.toNat = pages * pgSize

/-- A page of the segment in memory. -/
structure Filled (pd : Addr) (file : ElfFile) (segment : Segment) (before after : PageMap)
    (s : Store) (page : Nat) (frame : Addr) : Prop where
  free : before (pgNo segment.upage + page) = none
  mapped : after (pgNo segment.upage + page) = some frame
  foreign : Foreign pd s frame
  holds : Holds file (segment.ofs.toNat + page * pgSize)
    (min (segment.readBytes.toNat - page * pgSize) pgSize) (s.memory frame)
  entry : ∀ pde pte : Index, pde.val < 768 → pageNumber pde pte = pgNo segment.upage + page →
    entryAt s pd pde pte = userEntry frame segment.writable

/-- The pages before and after the first so many of the segment. -/
def Beyond (segment : Segment) (done page : Nat) : Prop :=
  page < pgNo segment.upage ∨ pgNo segment.upage + done ≤ page

/-- The loop after so many turns. -/
structure Progress (ax : BitVec 16) (k : Kernel) (pd : Addr) (file : ElfFile) (segment : Segment)
    (pages : Nat) (s : Store) (before : PageMap) (done : Nat) (l : Loading) (map : PageMap) :
    Prop where
  upage : l.upage.toNat = segment.upage.toNat + done * pgSize
  reads : l.readBytes.toNat = segment.readBytes.toNat - done * pgSize
  total : l.readBytes.toNat + l.zeroBytes.toNat + done * pgSize = pages * pgSize
  pos : l.pos = segment.ofs.toNat + min segment.readBytes.toNat (done * pgSize)
  reached : Reached ax k pd l.store map
  undisturbed : Undisturbed pd s l.store
  outside : ∀ page, Beyond segment done page → map page = before page
  entries : ∀ pde pte : Index, pde.val < 768 → Beyond segment done (pageNumber pde pte) →
    entryAt l.store pd pde pte = entryAt s pd pde pte
  filled : ∀ page < done, ∃ frame, Filled pd file segment before map l.store page frame

section Loop

variable {ax : BitVec 16} {k : Kernel} {pd : Addr} {env : Environment k} {file : ElfFile}
  {segment : Segment} {pages done : Nat} {s : Store} {before map : PageMap} {l : Loading}

theorem finished_iff (l : Loading) :
    Finished l ↔ l.readBytes.toNat + l.zeroBytes.toNat = 0 := by
  unfold Finished
  rw [BitVec.lt_def, BitVec.lt_def]
  change ¬(0 < _ ∨ 0 < _) ↔ _
  omega

theorem progress_start (fits : Fits segment pages) (reached : Reached ax k pd s before) :
    Progress ax k pd file segment pages s before 0 (startOf segment s) before where
  upage := by
    rw [Nat.zero_mul]
    rfl
  reads := by
    rw [Nat.zero_mul]
    rfl
  total := by
    rw [Nat.zero_mul]
    exact fits.total
  pos := by
    rw [Nat.zero_mul, Nat.min_zero]
    rfl
  reached := reached
  undisturbed := fun _ foreign => ⟨foreign, rfl⟩
  outside := fun _ _ => rfl
  entries := fun _ _ _ _ => rfl
  filled := fun _ impossible => absurd impossible (Nat.not_lt_zero _)

/-- What is left is a number of whole pages, so no subtraction goes below zero. -/
theorem running_bounds
    (progress : Progress ax k pd file segment pages s before done l map)
    (running : ¬Finished l) :
    done < pages ∧ (pageReadBytes l).toNat ≤ l.readBytes.toNat ∧
      (pageZeroBytes l).toNat ≤ l.zeroBytes.toNat := by
  rw [finished_iff] at running
  have total := progress.total
  rw [page_read_value, page_zero_value]
  unfold pgSize at *
  omega

theorem progress_page (fits : Fits segment pages) (inside : done < pages)
    (progress : Progress ax k pd file segment pages s before done l map) :
    pgOfs l.upage = 0 ∧ isUserVaddr l.upage = true ∧ pgNo l.upage = pgNo segment.upage + done := by
  have aligned := fits.aligned
  have ends := fits.ends
  have upage := progress.upage
  refine ⟨?_, ?_, ?_⟩
  · unfold pgOfs
    rw [upage, Nat.add_mul_mod_self_right]
    exact aligned
  · unfold isUserVaddr
    rw [decide_eq_true_eq, upage]
    unfold pgSize at *
    omega
  · unfold pgNo
    rw [upage, Nat.add_mul_div_right _ _ (by decide)]

/-- A page filled by an earlier turn stays so. -/
theorem filled_kept {later : Store} {page : Nat} {frame : Addr} {after : PageMap}
    (filled : Filled pd file segment before map s page frame)
    (undisturbed : Undisturbed pd s later)
    (mapped : after (pgNo segment.upage + page) = map (pgNo segment.upage + page))
    (entries : ∀ pde pte : Index, pde.val < 768 →
      pageNumber pde pte = pgNo segment.upage + page →
      entryAt later pd pde pte = entryAt s pd pde pte) :
    Filled pd file segment before after later page frame := by
  obtain ⟨foreign, same⟩ := undisturbed frame filled.foreign
  exact {
    free := filled.free
    mapped := mapped.trans filled.mapped
    foreign := foreign
    holds := by
      rw [same]
      exact filled.holds
    entry := fun pde pte low here =>
      (entries pde pte low here).trans (filled.entry pde pte low here) }

theorem holds_of_pos {pos other size : Nat} {words : Index → Word} (same : 0 < size → pos = other)
    (holds : Holds file pos size words) : Holds file other size words := by
  refine ⟨?_, holds.2⟩
  intro ofs early
  rw [← same (by omega)]
  exact holds.1 ofs early

/-- The counters after a turn that succeeds. -/
theorem advanced_counters (fits : Fits segment pages) {next : Loading} {kpage : Addr}
    (progress : Progress ax k pd file segment pages s before done l map) (running : ¬Finished l)
    (turn : Advanced pd file segment.writable l next kpage) :
    next.upage.toNat = segment.upage.toNat + (done + 1) * pgSize ∧
      next.readBytes.toNat = segment.readBytes.toNat - (done + 1) * pgSize ∧
      next.readBytes.toNat + next.zeroBytes.toNat + (done + 1) * pgSize = pages * pgSize ∧
      next.pos = segment.ofs.toNat + min segment.readBytes.toNat ((done + 1) * pgSize) := by
  obtain ⟨inside, reads, zeros⟩ := running_bounds progress running
  have ends := fits.ends
  have upage := progress.upage
  have left := progress.reads
  have total := progress.total
  have pos := progress.pos
  have size : pageSize.toNat = pgSize := rfl
  have readLess : (l.readBytes - pageReadBytes l).toNat =
      l.readBytes.toNat - (pageReadBytes l).toNat := BitVec.toNat_sub_of_le reads
  have zeroLess : (l.zeroBytes - pageZeroBytes l).toNat =
      l.zeroBytes.toNat - (pageZeroBytes l).toNat := BitVec.toNat_sub_of_le zeros
  have further : (l.upage + pageSize).toNat = l.upage.toNat + pageSize.toNat := by
    apply add_exact
    unfold pgSize physBase at *
    omega
  rw [turn.upage, turn.readBytes, turn.zeroBytes, turn.pos, readLess, zeroLess, further, size]
  rw [page_read_value] at reads ⊢
  rw [page_zero_value] at zeros ⊢
  unfold pgSize at *
  refine ⟨?_, ?_, ?_, ?_⟩
  · omega
  · omega
  · omega
  · omega

theorem progress_turn (fits : Fits segment pages)
    (progress : Progress ax k pd file segment pages s before done l map)
    (running : ¬Finished l) :
    ((∃ after, loadPage env pd file segment.writable l = .ok (.failed after)) ∧
        Obstructed env file map l) ∨
      ∃ next after, loadPage env pd file segment.writable l = .ok (.advanced next) ∧
        Progress ax k pd file segment pages s before (done + 1) next after := by
  have inside := (running_bounds progress running).1
  obtain ⟨aligned, user, number⟩ := progress_page fits inside progress
  rcases @load_page_cases ax k pd env file segment.writable l map progress.reached aligned user
    with failed | advanced
  · exact .inl failed
  · obtain ⟨free, kpage, next, returned, reached, turn⟩ := advanced
    obtain ⟨upage, reads, total, pos⟩ := advanced_counters fits progress running turn
    rw [number] at free reached
    have beyondHere : Beyond segment done (pgNo segment.upage + done) := .inr (Nat.le_refl _)
    have later : ∀ page, Beyond segment (done + 1) page →
        page ≠ pgNo segment.upage + done ∧ Beyond segment done page := by
      intro page beyond
      unfold Beyond at *
      omega
    refine .inr ⟨next, map.update (pgNo segment.upage + done) (some kpage), returned, ?_⟩
    exact {
      upage := upage
      reads := reads
      total := total
      pos := pos
      reached := reached
      undisturbed := undisturbed_trans progress.undisturbed turn.undisturbed
      outside := by
        intro page beyond
        obtain ⟨different, beyond⟩ := later page beyond
        unfold PageMap.update
        rw [if_neg different]
        exact progress.outside page beyond
      entries := by
        intro pde pte low beyond
        obtain ⟨different, beyond⟩ := later _ beyond
        rw [turn.entries pde pte low, number, if_neg different]
        exact progress.entries pde pte low beyond
      filled := by
        intro page early
        by_cases last : page = done
        · subst last
          refine ⟨kpage, ?_, ?_, turn.frame, ?_, ?_⟩
          · rw [← progress.outside _ beyondHere]
            exact free
          · exact if_pos rfl
          · have holds := turn.holds
            rw [page_read_value, progress.reads] at holds
            apply holds_of_pos _ holds
            intro positive
            rw [progress.pos]
            unfold pgSize at *
            omega
          · intro pde pte low here
            rw [turn.entries pde pte low, number, if_pos here]
        · obtain ⟨frame, filled⟩ := progress.filled page (by omega)
          have different : pgNo segment.upage + page ≠ pgNo segment.upage + done := by omega
          refine ⟨frame, filled_kept filled turn.undisturbed (if_neg different) ?_⟩
          intro pde pte low here
          rw [turn.entries pde pte low, number, if_neg (here ▸ different)] }

/-- Every state of the loop. -/
theorem turns_progress (fits : Fits segment pages) (reached : Reached ax k pd s before)
    (turns : Turns env pd file segment.writable (startOf segment s) l) :
    ∃ done map, Progress ax k pd file segment pages s before done l map := by
  induction turns with
  | start => exact ⟨0, before, progress_start fits reached⟩
  | turn prior running turned ih =>
      obtain ⟨done, map, progress⟩ := ih
      rcases @progress_turn ax k pd env file segment pages done s before map _ fits progress running
        with failed | advanced
      · obtain ⟨⟨after, returned⟩, _⟩ := failed
        rw [turned] at returned
        cases returned
      · obtain ⟨next, after, returned, further⟩ := advanced
        rw [turned] at returned
        cases returned
        exact ⟨done + 1, after, further⟩

/-- The loop ends; by induction on the pages that are left. -/
theorem loop_ends (fits : Fits segment pages) (left : Nat)
    (turns : Turns env pd file segment.writable (startOf segment s) l)
    (progress : Progress ax k pd file segment pages s before done l map)
    (here : done + left = pages) :
    ∃ loaded last, (∀ rounds, left ≤ rounds →
        loadLoop env pd file segment.writable rounds l = some (.ok (loaded, last))) ∧
      (loaded = true → ∃ final map, final.store = last ∧
        Progress ax k pd file segment pages s before pages final map) ∧
      (loaded = false → ∃ stopped map,
        Turns env pd file segment.writable (startOf segment s) stopped ∧
        Reached ax k pd stopped.store map ∧ Obstructed env file map stopped) := by
  induction left generalizing done l map with
  | zero =>
      have ended : Finished l := by
        rw [finished_iff]
        have total := progress.total
        rw [← here, Nat.add_zero] at total
        omega
      refine ⟨true, l.store, ?_, fun _ => ⟨l, map, rfl, here ▸ progress⟩,
        fun impossible => by cases impossible⟩
      intro rounds _
      cases rounds with
      | zero => exact if_pos ended
      | succ rounds => exact if_pos ended
  | succ left ih =>
      have running : ¬Finished l := by
        rw [finished_iff]
        have total := progress.total
        rw [← here] at total
        unfold pgSize at total
        omega
      rcases @progress_turn ax k pd env file segment pages done s before map l fits progress running
        with failed | advanced
      · obtain ⟨⟨after, returned⟩, obstructed⟩ := failed
        refine ⟨false, after, ?_, (fun impossible => by cases impossible),
          fun _ => ⟨l, map, turns, progress.reached, obstructed⟩⟩
        intro rounds enough
        cases rounds with
        | zero => omega
        | succ rounds =>
            unfold loadLoop
            rw [if_neg running, returned]
      · obtain ⟨next, after, returned, further⟩ := advanced
        obtain ⟨loaded, last, ends, final⟩ := ih (.turn turns running returned) further (by omega)
        refine ⟨loaded, last, ?_, final⟩
        intro rounds enough
        cases rounds with
        | zero => omega
        | succ rounds =>
            unfold loadLoop
            rw [if_neg running, returned]
            exact ends rounds (by omega)

end Loop

/-- The page holds a byte of the segment. -/
def Covered (phdr : Phdr) (page : Nat) : Prop :=
  ∃ i < phdr.pMemsz.toNat, page = (phdr.pVaddr.toNat + i) / pgSize

/-- The byte at a kernel virtual address. -/
def byteAt (s : Store) (kaddr : Addr) : Byte :=
  pageByte (s.memory (kaddr &&& ~~~pgMask)) (pgOfs kaddr)

/-- The segment is in memory, and nothing else of the process has changed. -/
structure Loaded (phdr : Phdr) (file : ElfFile) (pd : Addr) (s last : Store) : Prop where
  bounds : ∀ page, Covered phdr page →
    pgSize ≤ page * pgSize ∧ (page + 1) * pgSize ≤ physBase
  mapped : ∀ uaddr, Covered phdr (pgNo uaddr) → pagedirGetPage pd uaddr s = .ok none ∧
    ∃ kaddr, pagedirGetPage pd uaddr last = .ok (some kaddr)
  others : ∀ uaddr, isUserVaddr uaddr = true → ¬Covered phdr (pgNo uaddr) →
    pagedirGetPage pd uaddr last = pagedirGetPage pd uaddr s ∧
      entryAt last pd (pdNo uaddr) (ptNo uaddr) = entryAt s pd (pdNo uaddr) (ptNo uaddr)
  bytes : ∀ i < phdr.pMemsz.toNat, ∃ kaddr,
    pagedirGetPage pd (phdr.pVaddr + BitVec.ofNat 32 i) last = .ok (some kaddr) ∧
      if i < phdr.pFilesz.toNat then
        file.content[phdr.pOffset.toNat + i]? = some (byteAt last kaddr)
      else byteAt last kaddr = 0
  writable : ∀ uaddr, Covered phdr (pgNo uaddr) →
    (entryAt last pd (pdNo uaddr) (ptNo uaddr) &&& pteW ≠ 0 ↔ phdr.pFlags &&& pfW ≠ 0)
  rest : Undisturbed pd s last

section Segments

variable {ax : BitVec 16} {k : Kernel} {pd : Addr} {file : ElfFile} {phdr : Phdr}
  {s : Store} {before map : PageMap} {final : Loading}

theorem segment_upage (phdr : Phdr) :
    (segmentOf phdr).upage.toNat = phdr.pVaddr.toNat / pgSize * pgSize := and_not_mask _

theorem segment_page (phdr : Phdr) : pgNo (segmentOf phdr).upage = pgNo phdr.pVaddr := by
  unfold pgNo
  rw [segment_upage, Nat.mul_div_cancel _ (by decide)]

theorem fits_of_accepted (accepted : Accepted phdr file) :
    Fits (segmentOf phdr) (pageCount phdr) where
  aligned := by
    rw [segment_upage]
    exact Nat.mul_mod_left _ _
  ends := by
    rw [segment_upage]
    exact (page_count_bounds accepted).2.2
  total := by
    have exact_ := exact_of_accepted accepted
    rw [exact_.difference, exact_.rounded]

theorem covered_iff (accepted : Accepted phdr file) (page : Nat) :
    Covered phdr page ↔
      pgNo phdr.pVaddr ≤ page ∧ page < pgNo phdr.pVaddr + pageCount phdr := by
  obtain ⟨covers, tight, _⟩ := page_count_bounds accepted
  have nonempty := accepted.nonempty
  unfold Covered pgNo
  unfold pgSize at *
  constructor
  · intro covered
    obtain ⟨i, inside, here⟩ := covered
    omega
  · intro between
    by_cases first : page = phdr.pVaddr.toNat / 4096
    · exact ⟨0, nonempty, by omega⟩
    · refine ⟨page * 4096 - phdr.pVaddr.toNat, ?_, ?_⟩
      · omega
      · omega

theorem not_covered_beyond (accepted : Accepted phdr file) {page : Nat}
    (outside : ¬Covered phdr page) : Beyond (segmentOf phdr) (pageCount phdr) page := by
  rw [covered_iff accepted] at outside
  unfold Beyond
  rw [segment_page]
  omega

theorem user_entry_writable {ramPages : Nat} {page : Addr} (isPage : IsPage ramPages page)
    (writable : Bool) : userEntry page writable &&& pteW ≠ 0 ↔ writable = true := by
  have address : (page - kernelBase).getLsbD 1 = false := by
    rw [← BitVec.testBit_toNat]
    have bit := Nat.testBit_mod_two_pow (page - kernelBase).toNat 12 1
    rw [show 2 ^ 12 = 4096 from rfl, (physical isPage).2.1, Nat.zero_testBit] at bit
    simpa using bit.symm
  have masked : userEntry page writable &&& pteW = if writable then pteW else 0 := by
    apply BitVec.eq_of_getLsbD_eq
    intro i inside
    have only : ∀ i : Fin 32, pteW.getLsbD i.val = decide (i.val = 1) := by decide
    by_cases here : i = 1
    · subst here
      unfold userEntry
      cases writable with
      | false =>
          simp only [BitVec.getLsbD_and, BitVec.getLsbD_or, address]
          decide
      | true =>
          simp only [BitVec.getLsbD_and, BitVec.getLsbD_or, address]
          decide
    · have clear := only ⟨i, inside⟩
      simp only [here, decide_false] at clear
      rw [BitVec.getLsbD_and, clear, Bool.and_false]
      cases writable with
      | false => exact (BitVec.getLsbD_zero).symm
      | true => exact clear.symm
  rw [masked]
  cases writable with
  | false => decide
  | true => decide

theorem byte_at_frame {ramPages : Nat} {frame : Addr} (isPage : IsPage ramPages frame) {ofs : Nat}
    (inside : ofs < pgSize) (s : Store) :
    byteAt s (frame + BitVec.ofNat 32 ofs) = pageByte (s.memory frame) ofs := by
  have aligned := isPage.aligned
  have small := frame.isLt
  have value : (frame + BitVec.ofNat 32 ofs).toNat = frame.toNat + ofs := by
    have offset : (BitVec.ofNat 32 ofs).toNat = ofs := by
      rw [BitVec.toNat_ofNat]
      unfold pgSize at inside
      omega
    unfold pgSize at aligned inside
    rw [add_exact (by rw [offset]; omega), offset]
  have page : (frame + BitVec.ofNat 32 ofs) &&& ~~~pgMask = frame := by
    apply BitVec.eq_of_toNat_eq
    rw [and_not_mask, value]
    unfold pgSize at *
    omega
  have rest : pgOfs (frame + BitVec.ofNat 32 ofs) = ofs := by
    unfold pgOfs
    rw [value]
    unfold pgSize at *
    omega
  unfold byteAt
  rw [page, rest]

theorem covered_bounds (accepted : Accepted phdr file) {page : Nat}
    (covered : Covered phdr page) : pgSize ≤ page * pgSize ∧ (page + 1) * pgSize ≤ physBase := by
  rw [covered_iff accepted] at covered
  have ends := (page_count_bounds accepted).2.2
  have above := accepted.above
  unfold pgNo pgSize at *
  omega

theorem covered_user (accepted : Accepted phdr file) {uaddr : Addr}
    (covered : Covered phdr (pgNo uaddr)) : isUserVaddr uaddr = true := by
  have bounds := (covered_bounds accepted covered).2
  unfold isUserVaddr
  rw [decide_eq_true_eq]
  unfold pgNo pgSize at bounds
  omega

/-- The page of the segment that has this number. -/
theorem covered_filled (accepted : Accepted phdr file)
    (progress : Progress ax k pd file (segmentOf phdr) (pageCount phdr) s before (pageCount phdr)
      final map) {page : Nat} (covered : Covered phdr page) :
    ∃ frame, Filled pd file (segmentOf phdr) before map final.store (page - pgNo phdr.pVaddr) frame ∧
      before page = none ∧ map page = some frame ∧ IsPage k.ramPages frame := by
  have between := (covered_iff accepted page).mp covered
  obtain ⟨frame, filled⟩ := progress.filled (page - pgNo phdr.pVaddr) (by omega)
  have here : pgNo (segmentOf phdr).upage + (page - pgNo phdr.pVaddr) = page := by
    rw [segment_page]
    omega
  have free := filled.free
  have mapped := filled.mapped
  rw [here] at free mapped
  have isPage := ((reached_represents progress.reached).frames page frame mapped).1
  exact ⟨frame, filled, free, mapped, isPage⟩

/-- The address of a byte of the segment. -/
theorem segment_address (accepted : Accepted phdr file) {i : Nat} (inside : i < phdr.pMemsz.toNat) :
    (phdr.pVaddr + BitVec.ofNat 32 i).toNat = phdr.pVaddr.toNat + i := by
  have below := accepted.below
  have small := phdr.pMemsz.isLt
  have offset : (BitVec.ofNat 32 i).toNat = i := by
    rw [BitVec.toNat_ofNat]
    omega
  unfold physBase at below
  rw [add_exact (by rw [offset]; omega), offset]

theorem segment_byte (accepted : Accepted phdr file)
    (progress : Progress ax k pd file (segmentOf phdr) (pageCount phdr) s before (pageCount phdr)
      final map) {i : Nat} (inside : i < phdr.pMemsz.toNat) :
    ∃ kaddr, pagedirGetPage pd (phdr.pVaddr + BitVec.ofNat 32 i) final.store = .ok (some kaddr) ∧
      if i < phdr.pFilesz.toNat then
        file.content[phdr.pOffset.toNat + i]? = some (byteAt final.store kaddr)
      else byteAt final.store kaddr = 0 := by
  have address := segment_address accepted inside
  have number : pgNo (phdr.pVaddr + BitVec.ofNat 32 i) = (phdr.pVaddr.toNat + i) / pgSize := by
    unfold pgNo
    rw [address]
  have offset : pgOfs (phdr.pVaddr + BitVec.ofNat 32 i) = (phdr.pVaddr.toNat + i) % pgSize := by
    unfold pgOfs
    rw [address]
  have covered : Covered phdr (pgNo (phdr.pVaddr + BitVec.ofNat 32 i)) := ⟨i, inside, number⟩
  obtain ⟨frame, filled, _, mapped, isPage⟩ := covered_filled accepted progress covered
  have inPage : (phdr.pVaddr.toNat + i) % pgSize < pgSize := Nat.mod_lt _ (by decide)
  have rep := reached_represents progress.reached
  refine ⟨frame + BitVec.ofNat 32 ((phdr.pVaddr.toNat + i) % pgSize), ?_, ?_⟩
  · rw [pagedir_get_page_agrees rep (covered_user accepted covered), mapped, offset]
    rfl
  · rw [byte_at_frame isPage inPage]
    obtain ⟨ofFile, zero⟩ := filled.holds
    have ofs : (segmentOf phdr).ofs.toNat = phdr.pOffset.toNat / pgSize * pgSize := and_not_mask _
    have same := accepted.sameOffset
    have fileSum := (exact_of_accepted accepted).fileSum
    have reads := (exact_of_accepted accepted).readBytes
    rw [fileSum, page_offset_value] at reads
    have positive : 0 < phdr.pFilesz ↔ 0 < phdr.pFilesz.toNat := BitVec.lt_def
    have first : pgNo phdr.pVaddr = phdr.pVaddr.toNat / pgSize := rfl
    rw [number, first] at ofFile zero
    by_cases early : i < phdr.pFilesz.toNat
    · rw [if_pos early]
      rw [if_pos (positive.mpr (by omega))] at reads
      have byte := ofFile ((phdr.pVaddr.toNat + i) % pgSize) (by
        rw [reads]
        unfold pgSize at *
        omega)
      rw [← byte, ofs]
      congr 1
      unfold pgSize at *
      omega
    · rw [if_neg early]
      apply zero _ _ inPage
      rw [reads]
      unfold pgSize at *
      split
      · omega
      · next empty =>
        rw [positive] at empty
        omega

theorem loaded_of_progress (accepted : Accepted phdr file) (reached : Reached ax k pd s before)
    (progress : Progress ax k pd file (segmentOf phdr) (pageCount phdr) s before (pageCount phdr)
      final map) : Loaded phdr file pd s final.store := by
  have first := reached_represents reached
  have rep := reached_represents progress.reached
  exact {
    bounds := fun page covered => covered_bounds accepted covered
    mapped := by
      intro uaddr covered
      have user := covered_user accepted covered
      obtain ⟨frame, _, free, mapped, _⟩ := covered_filled accepted progress covered
      rw [pagedir_get_page_agrees first user, pagedir_get_page_agrees rep user, free, mapped]
      exact ⟨rfl, _, rfl⟩
    others := by
      intro uaddr user outside
      have beyond := not_covered_beyond accepted outside
      refine ⟨?_, ?_⟩
      · rw [pagedir_get_page_agrees first user, pagedir_get_page_agrees rep user,
          progress.outside _ beyond]
      · apply progress.entries _ _ (user_half_vaddr user)
        rw [page_number_vaddr]
        exact beyond
    bytes := fun i inside => segment_byte accepted progress inside
    writable := by
      intro uaddr covered
      have between := (covered_iff accepted _).mp covered
      obtain ⟨frame, filled, _, _, isPage⟩ := covered_filled accepted progress covered
      have here : pageNumber (pdNo uaddr) (ptNo uaddr) =
          pgNo (segmentOf phdr).upage + (pgNo uaddr - pgNo phdr.pVaddr) := by
        rw [page_number_vaddr, segment_page]
        omega
      rw [filled.entry _ _ (user_half_vaddr (covered_user accepted covered)) here,
        user_entry_writable isPage]
      exact decide_eq_true_iff
    rest := progress.undisturbed }

/-- No counter of the loop goes below zero and no address wraps around. -/
structure NoWrap (l : Loading) : Prop where
  readBytes : (pageReadBytes l).toNat ≤ l.readBytes.toNat
  zeroBytes : (pageZeroBytes l).toNat ≤ l.zeroBytes.toNat
  upage : (l.upage + pageSize).toNat = l.upage.toNat + pageSize.toNat

theorem segments_are_loaded (ax : BitVec 16) (k : Kernel) (pd : Addr) (env : Environment k)
    (file : ElfFile) (phdr : Phdr) (s : Store) (map : PageMap)
    (accepted : validateSegment phdr file = true) (reached : Reached ax k pd s map) :
    Exact phdr ∧ segmentAsserts (segmentOf phdr) = .ok () ∧
      (∀ l, Turns env pd file (segmentOf phdr).writable (startOf (segmentOf phdr) s) l →
        ¬Finished l → NoWrap l) ∧
      ∃ done last, (∀ rounds, pageCount phdr ≤ rounds →
          loadSegment env pd file (segmentOf phdr) rounds s = some (.ok (done, last))) ∧
        (done = true → Loaded phdr file pd s last ∧ ∃ after, Reached ax k pd last after) ∧
        (done = false → ∃ l after,
          Turns env pd file (segmentOf phdr).writable (startOf (segmentOf phdr) s) l ∧
          Reached ax k pd l.store after ∧ Obstructed env file after l) := by
  have checked := accepted_of_validate accepted
  have fits := fits_of_accepted checked
  have asserts := segment_asserts checked
  refine ⟨exact_of_accepted checked, asserts, ?_, ?_⟩
  · intro l turns running
    obtain ⟨done, before, progress⟩ := turns_progress fits reached turns
    obtain ⟨inside, reads, zeros⟩ := running_bounds progress running
    refine ⟨reads, zeros, ?_⟩
    have ends := fits.ends
    have upage := progress.upage
    have size : pageSize.toNat = pgSize := rfl
    apply add_exact
    unfold pgSize physBase at *
    omega
  · obtain ⟨done, last, ends, final, failure⟩ := @loop_ends ax k pd env file (segmentOf phdr)
      (pageCount phdr) 0 s map map (startOf (segmentOf phdr) s) fits (pageCount phdr) .start
      (progress_start fits reached) (Nat.zero_add _)
    refine ⟨done, last, ?_, ?_, failure⟩
    · intro rounds enough
      unfold loadSegment
      rw [asserts]
      exact ends rounds enough
    · intro succeeded
      obtain ⟨turned, after, here, progress⟩ := final succeeded
      rw [← here]
      exact ⟨loaded_of_progress checked reached progress, after, progress.reached⟩

/-- A header of one writable page, of which one byte is in the file. -/
def runHeader : Phdr where
  pOffset := 0
  pVaddr := 0x08048000
  pFilesz := 1
  pMemsz := 2
  pFlags := 6

def runFile : ElfFile := ⟨[0x7f], by decide⟩

def runEnvironment : Environment runKernel where
  palloc _ s := [userFrame, userTable].find? fun page => !s.live page
  fresh := by
    intro _ s page found
    have free := List.find?_some found
    refine ⟨?_, by simpa using free⟩
    rcases List.mem_cons.mp (List.mem_of_find?_eq_some found) with frame | table
    · rw [frame]
      exact run_page (by decide)
    · rw [List.mem_singleton.mp table]
      exact run_page (by decide)
  delivered _ := 4096

theorem run_gives_frame {call : Nat} {s : Store} (free : s.live userFrame = false) :
    runEnvironment.palloc call s = some userFrame := by
  change List.find? (fun page => !s.live page) [userFrame, userTable] = _
  rw [List.find?_cons_of_pos (by rw [free]; rfl)]

theorem run_gives_table {call : Nat} {s : Store} (used : s.live userFrame = true)
    (free : s.live userTable = false) : runEnvironment.palloc call s = some userTable := by
  change List.find? (fun page => !s.live page) [userFrame, userTable] = _
  rw [List.find?_cons_of_neg (by rw [used]; decide), List.find?_cons_of_pos (by rw [free]; rfl)]

/-- Nothing stands in the way of the first turn. -/
theorem run_unobstructed {s : Store} (frame : s.live userFrame = false)
    (table : s.live userTable = false) :
    ¬Obstructed runEnvironment runFile (fun _ => none) (startOf (segmentOf runHeader) s) := by
  intro obstructed
  rcases obstructed with noFrame | short | mapped | noTable
  · exact absurd ((run_gives_frame frame).symm.trans noFrame) (by decide)
  · exact absurd rfl short
  · exact absurd rfl mapped
  · obtain ⟨kpage, after, got, live, failed⟩ := noTable
    have same : userFrame = kpage := Option.some.inj ((run_gives_frame frame).symm.trans got)
    subst same
    have taken : after.live userFrame = true := by
      rw [live]
      exact take_live s userFrame
    have free : after.live userTable = false := by
      rw [live]
      change (if userTable = userFrame then true else s.live userTable) = false
      rw [if_neg (by decide), table]
    exact absurd ((run_gives_table taken free).symm.trans failed) (by decide)

theorem segments_are_loaded_one_page : ∃ s last,
    Reached 1024#16 runKernel userDir s (fun _ => none) ∧
      loadSegment runEnvironment userDir runFile (segmentOf runHeader) 1 s =
        some (.ok (true, last)) ∧
      Loaded runHeader runFile userDir s last := by
  obtain ⟨booted, running, free⟩ := run_boots
  have dirFresh : Fresh runKernel booted userDir :=
    ⟨run_page (by decide), free userDir (by decide)⟩
  let s := ({ booted with tables := [] }.take userDir).setPage userDir (booted.memory bootDir)
  have reached : Reached 1024#16 runKernel userDir s fun _ => none :=
    .created running dirFresh rfl
  have unused : ∀ page, page ∉ [bootDir, bootTable, userDir] → s.live page = false := by
    intro page outside
    simp only [List.mem_cons, List.not_mem_nil, or_false, not_or] at outside
    have notDir : page ≠ userDir := outside.2.2
    exact (if_neg notDir).trans (free page (by simp [outside]))
  have accepted : validateSegment runHeader runFile = true := by decide
  obtain ⟨_, asserts, _, done, last, ends, loaded, _⟩ := segments_are_loaded 1024#16 runKernel
    userDir runEnvironment runFile runHeader s _ accepted reached
  have returned := ends 1 (by decide)
  have unfinished : ¬Finished (startOf (segmentOf runHeader) s) := by
    rw [finished_iff]
    change ¬((segmentOf runHeader).readBytes.toNat + (segmentOf runHeader).zeroBytes.toNat = 0)
    decide
  have fits := fits_of_accepted (accepted_of_validate accepted)
  rcases @progress_turn 1024#16 runKernel userDir runEnvironment runFile (segmentOf runHeader)
    (pageCount runHeader) 0 s _ _ _ fits (progress_start fits reached) unfinished
    with failed | advanced
  · have frame := unused userFrame (by decide)
    exact absurd failed.2 (run_unobstructed frame (unused userTable (by decide)))
  · obtain ⟨next, _, turned, _⟩ := advanced
    have succeeded : done = true := by
      unfold loadSegment at returned
      rw [asserts] at returned
      change loadLoop runEnvironment userDir runFile _ 1 _ = _ at returned
      unfold loadLoop at returned
      rw [if_neg unfinished, turned] at returned
      change (if Finished next then some (Except.ok (true, next.store)) else none) = _ at returned
      split at returned
      · cases returned
        rfl
      · cases returned
    subst succeeded
    exact ⟨s, last, reached, returned, (loaded rfl).1⟩

end Segments

end UtSystems.Userprog.LoadedSegments
