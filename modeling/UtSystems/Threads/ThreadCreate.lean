import UtSystems.Filesys.FreeMap
import UtSystems.Lib.GuardedRun
import UtSystems.Threads.Synch

/-!
# The identifier that thread_create returns

A `struct thread` lies at the start of a page of the kernel pool. `thread_create` puts the
new thread on the run queue and then reads its `tid` from the page. The new thread may have
run and exited by then, and its page may have been overwritten and handed out again.

A thread is known by the number of its page; that of the initial thread is not from the pool. Only one
thread runs. Stretches with interrupts off are one step.
-/

namespace UtSystems.Threads.ThreadCreate

open Lib.GuardedRun Filesys.FreeMap Threads.Synch

set_option autoImplicit false

/-- `TID_ERROR`. -/
def tidError : Tid := -1

/-- Four bytes `0xcc` as an `int`, which `palloc_free_multiple` fills pages with. -/
def freedWord : Int := -858993460

/-- Where a thread is in `ptr_thread_create` and `thread_create`. -/
inductive Pc where
  -- in the function it runs
  | body
  -- the page `t` is allocated and initialised, `allocate_tid` is next
  | allocateTid (t : Nat)
  -- `thread_unblock (t)` is next
  | unblock (t : Nat) (tid : Tid)
  -- `t->tid` is next
  | readTid (t : Nat) (tid : Tid)
  deriving DecidableEq, Repr

/-- The page of the thread being created. -/
def Pc.subject : Pc → Option Nat
  | .body => none
  | .allocateTid t | .unblock t _ | .readTid t _ => some t

structure Machine where
  usedMap : Bitmap
  initial : Nat
  idle : Nat
  current : Nat
  ready : List Nat
  -- threads that have called `thread_block`
  blocked : List Nat
  -- pages obtained for something else than a thread
  data : List Nat
  pc : Nat → Pc
  -- the word at the offset of `tid` in a page
  tidWord : Nat → Int
  nextTid : Tid
  -- for each `thread_create` that has returned: the tid assigned, and the result
  returns : List (Option Tid × Tid)

/-- The first free page of the pool. -/
def pallocGetPage (m : Machine) : Option (Nat × Machine) :=
  (bitmapScan m.usedMap 0 1 false).map fun page =>
    (page, { m with
      usedMap := bitmapSetMultiple m.usedMap page 1 true
      tidWord := Function.update m.tidWord page 0 })

def pallocFreePage (m : Machine) (page : Nat) : Machine :=
  { m with
    usedMap := bitmapSetMultiple m.usedMap page 1 false
    tidWord := Function.update m.tidWord page freedWord }

/-- `schedule`: the thread at the head of the run queue, or the idle thread. -/
def schedule (m : Machine) : Machine :=
  match m.ready with
  | [] => { m with current := m.idle }
  | next :: rest => { m with current := next, ready := rest }

inductive Action where
  | create
  | allocateTid
  | unblock
  | readTid
  -- `thread_yield`, by the thread or by the timer interrupt
  | yield
  | block
  -- `thread_unblock` of a thread that has blocked, by the thread or by an interrupt
  | wake (page : Nat)
  | exit
  -- pages for other purposes
  | getPage
  | store (page : Nat) (word : Int)
  | freePage (page : Nat)
  deriving DecidableEq, Repr

def setPc (m : Machine) (pc : Pc) : Machine :=
  { m with pc := Function.update m.pc m.current pc }

/-- What a thread other than the idle thread does in its own function. -/
def bodyStep (m : Machine) : Action → Option Machine
  | .create =>
      match pallocGetPage m with
      | none => some { m with returns := (none, tidError) :: m.returns }
      | some (t, next) => some (setPc { next with pc := Function.update next.pc t .body }
          (.allocateTid t))
  | .block => some (schedule { m with blocked := m.current :: m.blocked })
  -- `thread_exit`, up to the end of `thread_schedule_tail` in the next thread
  | .exit =>
      some (if m.current = m.initial then schedule m else pallocFreePage (schedule m) m.current)
  | .getPage =>
      (pallocGetPage m).map fun (page, next) => { next with data := page :: next.data }
  | .store page word =>
      if page ∈ m.data then some { m with tidWord := Function.update m.tidWord page word } else none
  | .freePage page =>
      if page ∈ m.data then
        some { pallocFreePage m page with data := m.data.erase page }
      else none
  | _ => none

def step (m : Machine) (action : Action) : Option Machine :=
  match action, m.pc m.current with
  | .yield, _ =>
      if m.current = m.idle then some (schedule m)
      else some (schedule { m with ready := m.ready ++ [m.current] })
  | .wake page, _ =>
      if page ∈ m.blocked then
        some { m with blocked := m.blocked.erase page, ready := m.ready ++ [page] }
      else none
  -- `tid_lock` is not free
  | .block, .allocateTid _ =>
      if m.current = m.idle then none
      else some (schedule { m with blocked := m.current :: m.blocked })
  | .allocateTid, .allocateTid t =>
      some (setPc { m with
        tidWord := Function.update m.tidWord t m.nextTid
        nextTid := m.nextTid + 1 } (.unblock t m.nextTid))
  | .unblock, .unblock t tid => some (setPc { m with ready := m.ready ++ [t] } (.readTid t tid))
  | .readTid, .readTid t tid =>
      some (setPc { m with returns := (some tid, m.tidWord t) :: m.returns } .body)
  | action, .body => if m.current = m.idle then none else bodyStep m action
  | _, _ => none

/-- After `thread_start`, with `pages` free pages in the kernel pool: the initial thread has
tid 1 and the idle thread, on the first page, tid 2. -/
def boot (pages : Nat) : Machine where
  usedMap := true :: List.replicate pages false
  initial := pages + 1
  idle := 0
  current := pages + 1
  ready := []
  blocked := []
  data := []
  pc := fun _ => .body
  tidWord := fun page => if page = pages + 1 then 1 else if page = 0 then 2 else 0
  nextTid := 3
  returns := []

/-- `thread_create` returns `TID_ERROR` or the tid that was assigned. -/
def ReturnsTid (m : Machine) : Prop :=
  ∀ entry ∈ m.returns, entry.2 = entry.1.getD tidError

/-- A thread does not exit while its creator has still to read its tid. -/
def ExitsLate (m : Machine) (action : Action) : Prop :=
  action = .exit → ∀ creator ≤ m.usedMap.length, (m.pc creator).subject ≠ some m.current

instance (m : Machine) (action : Action) : Decidable (ExitsLate m action) :=
  inferInstanceAs (Decidable (action = .exit →
    ∀ creator ≤ m.usedMap.length, (m.pc creator).subject ≠ some m.current))

def Used (m : Machine) (page : Nat) : Prop := bitmapTest m.usedMap page = true

/-- The threads that run or may run again, the idle thread apart. -/
def Machine.threads (m : Machine) : List Nat := m.current :: (m.ready ++ m.blocked)

/-- `thread_unblock` of the new thread is still to come. -/
def Hides (pc : Pc) (t : Nat) : Prop := pc = .allocateTid t ∨ ∃ tid, pc = .unblock t tid

/-- Which pages are whose, and how far the threads being created are. -/
structure Inv (m : Machine) : Prop where
  outside : m.initial = m.usedMap.length
  idleUsed : Used m m.idle
  threadsUsed : ∀ page ∈ m.threads, Used m page ∨ page = m.initial
  threadsOnce : m.threads.Nodup
  idleApart : m.idle ∉ m.ready ++ m.blocked
  dataUsed : ∀ page ∈ m.data, Used m page ∧ page ∉ m.threads ∧ page ≠ m.idle
  dataOnce : m.data.Nodup
  subject : ∀ creator t, (m.pc creator).subject = some t →
    Used m t ∧ t ∉ m.data ∧ t ≠ m.idle ∧ creator ≤ m.usedMap.length
  hidden : ∀ creator t, Hides (m.pc creator) t → t ∉ m.threads
  assigned : ∀ creator t tid, m.pc creator = .unblock t tid ∨ m.pc creator = .readTid t tid →
    m.tidWord t = tid
  apart : ∀ first second t, (m.pc first).subject = some t → (m.pc second).subject = some t →
    first = second
  returned : ReturnsTid m

theorem hides_subject {pc : Pc} {t : Nat} (hides : Hides pc t) : pc.subject = some t := by
  rcases hides with rfl | ⟨tid, rfl⟩
  · rfl
  · rfl

theorem knows_subject {pc : Pc} {t : Nat} {tid : Tid}
    (knows : pc = .unblock t tid ∨ pc = .readTid t tid) : pc.subject = some t := by
  rcases knows with rfl | rfl
  · rfl
  · rfl

section Scheduling

variable {m : Machine}

theorem schedule_threads {page : Nat} (member : page ∈ (schedule m).threads) :
    page ∈ m.ready ++ m.blocked ∨ page = m.idle := by
  unfold schedule Machine.threads at member
  cases queue : m.ready with
  | nil =>
      rw [queue] at member
      simp only [List.nil_append, List.mem_cons] at member
      rcases member with rfl | waits
      · exact .inr rfl
      · exact .inl (List.mem_append_right _ waits)
  | cons first rest =>
      rw [queue] at member
      exact .inl member

theorem schedule_once (once : (m.ready ++ m.blocked).Nodup) (apart : m.idle ∉ m.ready ++ m.blocked) :
    (schedule m).threads.Nodup ∧
      (schedule m).idle ∉ (schedule m).ready ++ (schedule m).blocked := by
  unfold schedule Machine.threads
  cases queue : m.ready with
  | nil =>
      rw [queue] at once apart
      exact ⟨List.nodup_cons.mpr ⟨apart, once⟩, apart⟩
  | cons first rest =>
      rw [queue] at once apart
      exact ⟨once, fun member => apart (List.mem_cons_of_mem _ member)⟩

theorem schedule_frame :
    (schedule m).usedMap = m.usedMap ∧ (schedule m).initial = m.initial ∧
      (schedule m).idle = m.idle ∧ (schedule m).data = m.data ∧ (schedule m).pc = m.pc ∧
      (schedule m).tidWord = m.tidWord ∧ (schedule m).returns = m.returns := by
  unfold schedule
  cases m.ready <;> exact ⟨rfl, rfl, rfl, rfl, rfl, rfl, rfl⟩

/-- A step that only moves threads between the processor and the queues. -/
theorem inv_moved {next : Machine} (inv : Inv m) (usedMap : next.usedMap = m.usedMap)
    (initial : next.initial = m.initial) (idle : next.idle = m.idle) (data : next.data = m.data)
    (pc : next.pc = m.pc) (tidWord : next.tidWord = m.tidWord) (returns : next.returns = m.returns)
    (fewer : ∀ page ∈ next.threads, page ∈ m.threads ∨ page = m.idle)
    (once : next.threads.Nodup) (apart : next.idle ∉ next.ready ++ next.blocked) : Inv next := by
  have same : ∀ page, Used next page ↔ Used m page := by
    intro page
    unfold Used
    rw [usedMap]
  constructor
  case outside => rw [initial, usedMap, inv.outside]
  case idleUsed =>
    rw [same, idle]
    exact inv.idleUsed
  case threadsUsed =>
    intro page member
    rw [same, initial]
    rcases fewer page member with old | rfl
    · exact inv.threadsUsed page old
    · exact .inl inv.idleUsed
  case threadsOnce => exact once
  case idleApart => exact apart
  case dataUsed =>
    intro page member
    rw [data] at member
    obtain ⟨used, notThread, notIdle⟩ := inv.dataUsed page member
    rw [same, idle]
    refine ⟨used, fun thread => ?_, notIdle⟩
    rcases fewer page thread with old | isIdle
    · exact notThread old
    · exact notIdle isIdle
  case dataOnce =>
    rw [data]
    exact inv.dataOnce
  case subject =>
    intro creator t
    rw [pc, same, data, idle, usedMap]
    exact inv.subject creator t
  case hidden =>
    intro creator t hides thread
    rw [pc] at hides
    rcases fewer t thread with old | isIdle
    · exact inv.hidden creator t hides old
    · exact (inv.subject creator t (hides_subject hides)).2.2.1 isIdle
  case assigned =>
    rw [pc, tidWord]
    exact inv.assigned
  case apart =>
    rw [pc]
    exact inv.apart
  case returned =>
    unfold ReturnsTid
    rw [returns]
    exact inv.returned

end Scheduling

section Pages

variable {m next : Machine} {page t : Nat}

theorem used_lt (used : Used m page) : page < m.usedMap.length := by
  by_contra beyond
  have past : m.usedMap.length ≤ page := by omega
  have unset : bitmapTest m.usedMap page = false := by
    simp [bitmapTest, List.getD_eq_getElem?_getD, past]
  unfold Used at used
  rw [unset] at used
  cases used

/-- What `palloc_get_page` returns was free and is not any more. -/
theorem get_page_some (got : pallocGetPage m = some (page, next)) :
    page < m.usedMap.length ∧ ¬Used m page ∧ next = { m with
      usedMap := bitmapSetMultiple m.usedMap page 1 true
      tidWord := Function.update m.tidWord page 0 } := by
  unfold pallocGetPage at got
  obtain ⟨found, scan, eq⟩ := Option.map_eq_some_iff.mp got
  cases eq
  obtain ⟨fits, free⟩ := bitmap_scan_some scan
  have clear := free 0 (by omega)
  refine ⟨by omega, ?_, rfl⟩
  unfold Used
  rw [Nat.add_zero] at clear
  rw [clear]
  exact Bool.false_ne_true

theorem marked_page {value : Bool} (inside : page < m.usedMap.length) (other : Nat) :
    bitmapTest (bitmapSetMultiple m.usedMap page 1 value) other =
      if other = page then value else bitmapTest m.usedMap other := by
  rw [bitmap_set_multiple_test (by omega)]
  by_cases same : other = page
  · rw [if_pos same, if_pos (by omega)]
  · rw [if_neg same, if_neg (by omega)]

/-- A free page belongs to nobody. -/
theorem free_page_apart (inv : Inv m) (free : ¬Used m page) (inside : page < m.usedMap.length) :
    page ∉ m.threads ∧ page ∉ m.data ∧ page ≠ m.idle ∧
      ∀ creator t, (m.pc creator).subject = some t → t ≠ page := by
  refine ⟨?_, ?_, ?_, ?_⟩
  · intro thread
    rcases inv.threadsUsed page thread with used | isInitial
    · exact free used
    · rw [isInitial, inv.outside] at inside
      exact absurd inside (Nat.lt_irrefl _)
  · exact fun member => free (inv.dataUsed page member).1
  · rintro rfl
    exact free inv.idleUsed
  · rintro creator t subject rfl
    exact free (inv.subject creator t subject).1

end Pages

section Steps

variable {m next : Machine}

theorem current_small (inv : Inv m) : m.current ≤ m.usedMap.length := by
  rcases inv.threadsUsed m.current List.mem_cons_self with used | isInitial
  · exact Nat.le_of_lt (used_lt used)
  · exact Nat.le_of_eq (isInitial.trans inv.outside)

theorem inv_yield (inv : Inv m) : Inv (if m.current = m.idle then schedule m
    else schedule { m with ready := m.ready ++ [m.current] }) := by
  have once := inv.threadsOnce
  unfold Machine.threads at once
  obtain ⟨notQueued, queuesOnce⟩ := List.nodup_cons.mp once
  by_cases isIdle : m.current = m.idle
  · rw [if_pos isIdle]
    obtain ⟨usedMap, initial, idle, data, pc, tidWord, returns⟩ := @schedule_frame m
    obtain ⟨onceAfter, apartAfter⟩ := schedule_once queuesOnce inv.idleApart
    apply inv_moved inv usedMap initial idle data pc tidWord returns _ onceAfter apartAfter
    intro page member
    rcases schedule_threads member with queued | rest
    · exact .inl (List.mem_cons_of_mem _ queued)
    · exact .inr rest
  · rw [if_neg isIdle]
    obtain ⟨usedMap, initial, idle, data, pc, tidWord, returns⟩ :=
      @schedule_frame { m with ready := m.ready ++ [m.current] }
    have perm : (m.ready ++ [m.current] ++ m.blocked).Perm m.threads := by
      rw [List.append_assoc]
      exact List.perm_middle
    have apart : m.idle ∉ m.ready ++ [m.current] ++ m.blocked := by
      rw [perm.mem_iff]
      intro member
      rcases List.mem_cons.mp member with same | queued
      · exact isIdle same.symm
      · exact inv.idleApart queued
    obtain ⟨onceAfter, apartAfter⟩ := @schedule_once { m with ready := m.ready ++ [m.current] }
      (perm.nodup_iff.mpr inv.threadsOnce) apart
    apply inv_moved inv usedMap initial idle data pc tidWord returns _ onceAfter apartAfter
    intro page member
    rcases schedule_threads member with queued | rest
    · exact .inl (perm.mem_iff.mp queued)
    · exact .inr rest

theorem inv_block (inv : Inv m) (notIdle : m.current ≠ m.idle) :
    Inv (schedule { m with blocked := m.current :: m.blocked }) := by
  obtain ⟨usedMap, initial, idle, data, pc, tidWord, returns⟩ :=
    @schedule_frame { m with blocked := m.current :: m.blocked }
  have perm : (m.ready ++ m.current :: m.blocked).Perm m.threads := List.perm_middle
  have apart : m.idle ∉ m.ready ++ m.current :: m.blocked := by
    rw [perm.mem_iff]
    intro member
    rcases List.mem_cons.mp member with same | queued
    · exact notIdle same.symm
    · exact inv.idleApart queued
  obtain ⟨onceAfter, apartAfter⟩ := @schedule_once { m with blocked := m.current :: m.blocked }
    (perm.nodup_iff.mpr inv.threadsOnce) apart
  apply inv_moved inv usedMap initial idle data pc tidWord returns _ onceAfter apartAfter
  intro page member
  rcases schedule_threads member with queued | rest
  · exact .inl (perm.mem_iff.mp queued)
  · exact .inr rest

theorem inv_wake (inv : Inv m) {page : Nat} (waits : page ∈ m.blocked) :
    Inv { m with blocked := m.blocked.erase page, ready := m.ready ++ [page] } := by
  have queues : (m.ready ++ [page] ++ m.blocked.erase page).Perm (m.ready ++ m.blocked) := by
    rw [List.append_assoc]
    exact (List.perm_cons_erase waits).symm.append_left _
  have perm := queues.cons m.current
  have fewer : ∀ other ∈ m.current :: (m.ready ++ [page] ++ m.blocked.erase page),
      other ∈ m.threads ∨ other = m.idle := fun other member => .inl (perm.mem_iff.mp member)
  have apart : m.idle ∉ m.ready ++ [page] ++ m.blocked.erase page :=
    fun member => inv.idleApart (queues.mem_iff.mp member)
  exact @inv_moved m { m with blocked := m.blocked.erase page, ready := m.ready ++ [page] } inv
    rfl rfl rfl rfl rfl rfl rfl fewer (perm.nodup_iff.mpr inv.threadsOnce) apart

/-- A page is obtained for a new thread. -/
theorem inv_create (inv : Inv m) {t : Nat} (got : pallocGetPage m = some (t, next)) :
    Inv (setPc { next with pc := Function.update next.pc t .body } (.allocateTid t)) := by
  obtain ⟨inside, free, rfl⟩ := get_page_some got
  obtain ⟨notThread, notData, notIdle, notSubject⟩ := free_page_apart inv free inside
  have notCurrent : t ≠ m.current := fun same => notThread (by rw [same]; exact List.mem_cons_self)
  have used : ∀ page, bitmapTest (bitmapSetMultiple m.usedMap t 1 true) page = true ↔
      page = t ∨ Used m page := by
    intro page
    rw [marked_page inside]
    by_cases same : page = t
    · rw [if_pos same]
      exact ⟨fun _ => .inl same, fun _ => rfl⟩
    · rw [if_neg same]
      exact ⟨fun old => .inr old, fun either => either.resolve_left same⟩
  have pcs : ∀ creator, (Function.update (Function.update m.pc t .body) m.current
      (.allocateTid t)) creator = .allocateTid t ∧ creator = m.current ∨
      creator ≠ m.current ∧ ((Function.update (Function.update m.pc t .body) m.current
        (.allocateTid t)) creator = m.pc creator ∨
        (Function.update (Function.update m.pc t .body) m.current (.allocateTid t)) creator =
          .body) := by
    intro creator
    by_cases isCurrent : creator = m.current
    · subst isCurrent
      exact .inl ⟨Function.update_self .., rfl⟩
    · rw [Function.update_of_ne isCurrent]
      refine .inr ⟨isCurrent, ?_⟩
      by_cases isNew : creator = t
      · subst isNew
        exact .inr (Function.update_self ..)
      · exact .inl (Function.update_of_ne isNew ..)
  constructor
  case outside =>
    dsimp only [setPc]
    rw [bitmap_set_multiple_length (by omega)]
    exact inv.outside
  case idleUsed => exact (used _).mpr (.inr inv.idleUsed)
  case threadsUsed =>
    intro page thread
    rcases inv.threadsUsed page thread with old | isInitial
    · exact .inl ((used page).mpr (.inr old))
    · exact .inr isInitial
  case threadsOnce => exact inv.threadsOnce
  case idleApart => exact inv.idleApart
  case dataUsed =>
    intro page member
    obtain ⟨old, rest⟩ := inv.dataUsed page member
    exact ⟨(used page).mpr (.inr old), rest⟩
  case dataOnce => exact inv.dataOnce
  case subject =>
    intro creator page subject
    dsimp only [setPc] at subject ⊢
    rw [bitmap_set_multiple_length (by omega)]
    rcases pcs creator with ⟨at_, rfl⟩ | ⟨_, at_ | at_⟩
    · rw [at_] at subject
      cases subject
      exact ⟨(used t).mpr (.inl rfl), notData, notIdle, current_small inv⟩
    · rw [at_] at subject
      obtain ⟨old, rest⟩ := inv.subject creator page subject
      exact ⟨(used page).mpr (.inr old), rest⟩
    · rw [at_] at subject
      cases subject
  case hidden =>
    intro creator page hides
    dsimp only [setPc] at hides
    rcases pcs creator with ⟨at_, rfl⟩ | ⟨_, at_ | at_⟩
    · rw [at_] at hides
      cases hides_subject hides
      exact notThread
    · rw [at_] at hides
      exact inv.hidden creator page hides
    · rw [at_] at hides
      cases hides_subject hides
  case assigned =>
    intro creator page tid knows
    dsimp only [setPc] at knows ⊢
    rcases pcs creator with ⟨at_, rfl⟩ | ⟨_, at_ | at_⟩
    · rw [at_] at knows
      rcases knows with knows | knows <;> cases knows
    · rw [at_] at knows
      rw [Function.update_of_ne (notSubject creator page (knows_subject knows))]
      exact inv.assigned creator page tid knows
    · rw [at_] at knows
      rcases knows with knows | knows <;> cases knows
  case apart =>
    intro first second page one two
    dsimp only [setPc] at one two
    rcases pcs first with ⟨firstAt, rfl⟩ | ⟨_, firstAt | firstAt⟩
    · rw [firstAt] at one
      cases one
      rcases pcs second with ⟨_, rfl⟩ | ⟨_, secondAt | secondAt⟩
      · rfl
      · rw [secondAt] at two
        exact absurd rfl (notSubject second t two)
      · rw [secondAt] at two
        cases two
    · rw [firstAt] at one
      rcases pcs second with ⟨secondAt, rfl⟩ | ⟨_, secondAt | secondAt⟩
      · rw [secondAt] at two
        cases two
        exact absurd rfl (notSubject first t one)
      · rw [secondAt] at two
        exact inv.apart first second page one two
      · rw [secondAt] at two
        cases two
    · rw [firstAt] at one
      cases one
  case returned => exact inv.returned

/-- The running thread goes on with the creation it is in, or ends it. -/
theorem inv_set_pc (inv : Inv m) {pc : Pc}
    (subject : ∀ t, pc.subject = some t → (m.pc m.current).subject = some t)
    (hides : ∀ t, Hides pc t → Hides (m.pc m.current) t)
    (knows : ∀ t tid, pc = .unblock t tid ∨ pc = .readTid t tid → m.tidWord t = tid) :
    Inv (setPc m pc) := by
  have cases_ : ∀ creator, (setPc m pc).pc creator = pc ∧ creator = m.current ∨
      (setPc m pc).pc creator = m.pc creator := by
    intro creator
    by_cases isCurrent : creator = m.current
    · subst isCurrent
      exact .inl ⟨Function.update_self .., rfl⟩
    · exact .inr (Function.update_of_ne isCurrent ..)
  have older : ∀ creator t, ((setPc m pc).pc creator).subject = some t →
      (m.pc creator).subject = some t := by
    intro creator t its
    rcases cases_ creator with ⟨at_, rfl⟩ | at_
    · rw [at_] at its
      exact subject t its
    · rw [at_] at its
      exact its
  constructor
  case outside => exact inv.outside
  case idleUsed => exact inv.idleUsed
  case threadsUsed => exact inv.threadsUsed
  case threadsOnce => exact inv.threadsOnce
  case idleApart => exact inv.idleApart
  case dataUsed => exact inv.dataUsed
  case dataOnce => exact inv.dataOnce
  case subject => exact fun creator t its => inv.subject creator t (older creator t its)
  case hidden =>
    intro creator t its
    rcases cases_ creator with ⟨at_, rfl⟩ | at_
    · rw [at_] at its
      exact inv.hidden m.current t (hides t its)
    · rw [at_] at its
      exact inv.hidden creator t its
  case assigned =>
    intro creator t tid its
    rcases cases_ creator with ⟨at_, rfl⟩ | at_
    · rw [at_] at its
      exact knows t tid its
    · rw [at_] at its
      exact inv.assigned creator t tid its
  case apart =>
    exact fun first second t one two =>
      inv.apart first second t (older first t one) (older second t two)
  case returned => exact inv.returned

/-- A store into a page whose tid no creator is going to read. -/
theorem inv_word (inv : Inv m) {page : Nat} (word : Int) (nextTid : Tid)
    (unknown : ∀ creator tid, ¬(m.pc creator = .unblock page tid ∨ m.pc creator = .readTid page tid)) :
    Inv { m with tidWord := Function.update m.tidWord page word, nextTid := nextTid } := by
  refine { inv with assigned := ?_ }
  intro creator t tid knows
  have different : t ≠ page := by
    rintro rfl
    exact unknown creator tid knows
  dsimp only
  rw [Function.update_of_ne different]
  exact inv.assigned creator t tid knows

/-- A thread that nobody hides any more joins the run queue. -/
theorem inv_enqueue (inv : Inv m) {t : Nat} (used : Used m t) (notThread : t ∉ m.threads)
    (notData : t ∉ m.data) (notIdle : t ≠ m.idle) (shown : ∀ creator, ¬Hides (m.pc creator) t) :
    Inv { m with ready := m.ready ++ [t] } := by
  have perm : (m.current :: (m.ready ++ [t] ++ m.blocked)).Perm (t :: m.threads) := by
    rw [List.append_assoc]
    exact (List.perm_middle.cons m.current).trans (List.Perm.swap t m.current _)
  have queues : (m.ready ++ [t] ++ m.blocked).Perm (t :: (m.ready ++ m.blocked)) := by
    rw [List.append_assoc]
    exact List.perm_middle
  have more : ∀ page ∈ m.current :: (m.ready ++ [t] ++ m.blocked), page = t ∨ page ∈ m.threads :=
    fun page member => List.mem_cons.mp (perm.mem_iff.mp member)
  constructor
  case outside => exact inv.outside
  case idleUsed => exact inv.idleUsed
  case threadsUsed =>
    intro page member
    rcases more page member with rfl | old
    · exact .inl used
    · exact inv.threadsUsed page old
  case threadsOnce => exact perm.nodup_iff.mpr (List.nodup_cons.mpr ⟨notThread, inv.threadsOnce⟩)
  case idleApart =>
    intro member
    rcases List.mem_cons.mp (queues.mem_iff.mp member) with same | queued
    · exact notIdle same.symm
    · exact inv.idleApart queued
  case dataUsed =>
    intro page member
    obtain ⟨pageUsed, pageApart, pageIdle⟩ := inv.dataUsed page member
    refine ⟨pageUsed, fun thread => ?_, pageIdle⟩
    rcases more page thread with rfl | old
    · exact notData member
    · exact pageApart old
  case dataOnce => exact inv.dataOnce
  case subject => exact inv.subject
  case hidden =>
    intro creator page hides thread
    rcases more page thread with rfl | old
    · exact shown creator hides
    · exact inv.hidden creator page hides old
  case assigned => exact inv.assigned
  case apart => exact inv.apart
  case returned => exact inv.returned

theorem inv_allocate (inv : Inv m) {t : Nat} (at_ : m.pc m.current = .allocateTid t) :
    Inv (setPc { m with
      tidWord := Function.update m.tidWord t m.nextTid
      nextTid := m.nextTid + 1 } (.unblock t m.nextTid)) := by
  have itsSubject : (m.pc m.current).subject = some t := by
    rw [at_]
    rfl
  have unknown : ∀ creator tid,
      ¬(m.pc creator = .unblock t tid ∨ m.pc creator = .readTid t tid) := by
    intro creator tid knows
    have same := inv.apart creator m.current t (knows_subject knows) itsSubject
    rw [same, at_] at knows
    rcases knows with knows | knows <;> cases knows
  apply inv_set_pc (inv_word inv m.nextTid (m.nextTid + 1) unknown)
  · rintro _ ⟨⟩
    exact itsSubject
  · rintro page (at_ | ⟨tid, at_⟩)
    · cases at_
    · cases at_
      exact .inl at_
  · rintro page tid (at_ | at_)
    · cases at_
      exact Function.update_self ..
    · cases at_

theorem inv_unblock (inv : Inv m) {t : Nat} {tid : Tid} (at_ : m.pc m.current = .unblock t tid) :
    Inv (setPc { m with ready := m.ready ++ [t] } (.readTid t tid)) := by
  have itsSubject : (m.pc m.current).subject = some t := by
    rw [at_]
    rfl
  obtain ⟨used, notData, notIdle, _⟩ := inv.subject m.current t itsSubject
  have moved : Inv (setPc m (.readTid t tid)) := by
    apply inv_set_pc inv
    · rintro _ ⟨⟩
      exact itsSubject
    · rintro page (impossible | ⟨_, impossible⟩) <;> cases impossible
    · rintro page other (impossible | same)
      · cases impossible
      · cases same
        exact inv.assigned m.current t tid (.inl at_)
  have shown : ∀ creator, ¬Hides ((setPc m (.readTid t tid)).pc creator) t := by
    intro creator hides
    have now : (setPc m (.readTid t tid)).pc m.current = .readTid t tid := Function.update_self ..
    have nowSubject : ((setPc m (.readTid t tid)).pc m.current).subject = some t := by
      rw [now]
      rfl
    have same := moved.apart creator m.current t (hides_subject hides) nowSubject
    rw [same, now] at hides
    rcases hides with impossible | ⟨_, impossible⟩ <;> cases impossible
  exact inv_enqueue moved used (inv.hidden m.current t (.inr ⟨tid, at_⟩)) notData notIdle shown

theorem inv_read (inv : Inv m) {t : Nat} {tid : Tid} (at_ : m.pc m.current = .readTid t tid) :
    Inv (setPc { m with returns := (some tid, m.tidWord t) :: m.returns } .body) := by
  have ended : Inv (setPc m .body) := by
    apply inv_set_pc inv
    · exact nofun
    · rintro page (impossible | ⟨_, impossible⟩) <;> cases impossible
    · rintro page other (impossible | impossible) <;> cases impossible
  refine { ended with returned := ?_ }
  intro entry member
  rcases List.mem_cons.mp member with rfl | earlier
  · exact inv.assigned m.current t tid (.inr at_)
  · exact inv.returned entry earlier

/-- `palloc_get_page` for something else. -/
theorem inv_get_page (inv : Inv m) {page : Nat} (got : pallocGetPage m = some (page, next)) :
    Inv { next with data := page :: next.data } := by
  obtain ⟨inside, free, rfl⟩ := get_page_some got
  obtain ⟨notThread, notData, notIdle, notSubject⟩ := free_page_apart inv free inside
  have used : ∀ other, Used m other →
      bitmapTest (bitmapSetMultiple m.usedMap page 1 true) other = true := by
    intro other old
    rw [marked_page inside]
    split
    · rfl
    · exact old
  have length : (bitmapSetMultiple m.usedMap page 1 true).length = m.usedMap.length :=
    bitmap_set_multiple_length (by omega)
  constructor
  case outside => exact inv.outside.trans length.symm
  case idleUsed => exact used _ inv.idleUsed
  case threadsUsed =>
    intro other thread
    rcases inv.threadsUsed other thread with old | isInitial
    · exact .inl (used other old)
    · exact .inr isInitial
  case threadsOnce => exact inv.threadsOnce
  case idleApart => exact inv.idleApart
  case dataUsed =>
    intro other member
    rcases List.mem_cons.mp member with rfl | old
    · refine ⟨?_, notThread, notIdle⟩
      exact (marked_page inside other).trans (if_pos rfl)
    · obtain ⟨otherUsed, rest⟩ := inv.dataUsed other old
      exact ⟨used other otherUsed, rest⟩
  case dataOnce => exact List.nodup_cons.mpr ⟨notData, inv.dataOnce⟩
  case subject =>
    intro creator t subject
    obtain ⟨subjectUsed, subjectData, subjectIdle, small⟩ := inv.subject creator t subject
    refine ⟨used t subjectUsed, fun member => ?_, subjectIdle, Nat.le_trans small (Nat.le_of_eq length.symm)⟩
    rcases List.mem_cons.mp member with same | old
    · exact notSubject creator t subject same
    · exact subjectData old
  case hidden => exact inv.hidden
  case assigned =>
    intro creator t tid knows
    dsimp only
    rw [Function.update_of_ne (notSubject creator t (knows_subject knows))]
    exact inv.assigned creator t tid knows
  case apart => exact inv.apart
  case returned => exact inv.returned

/-- A page that no longer belongs to anybody goes back to the pool. -/
theorem inv_release (inv : Inv m) {page : Nat} (inside : page < m.usedMap.length)
    (notThread : page ∉ m.threads) (notData : page ∉ m.data) (notIdle : page ≠ m.idle)
    (notSubject : ∀ creator t, (m.pc creator).subject = some t → t ≠ page) :
    Inv (pallocFreePage m page) := by
  have used : ∀ other, other ≠ page → Used m other → Used (pallocFreePage m page) other := by
    intro other different old
    exact (marked_page inside other).trans ((if_neg different).trans old)
  have length : (bitmapSetMultiple m.usedMap page 1 false).length = m.usedMap.length :=
    bitmap_set_multiple_length (by omega)
  constructor
  case outside => exact inv.outside.trans length.symm
  case idleUsed => exact used _ notIdle.symm inv.idleUsed
  case threadsUsed =>
    intro other thread
    rcases inv.threadsUsed other thread with old | isInitial
    · refine .inl (used other ?_ old)
      rintro rfl
      exact notThread thread
    · exact .inr isInitial
  case threadsOnce => exact inv.threadsOnce
  case idleApart => exact inv.idleApart
  case dataUsed =>
    intro other member
    obtain ⟨otherUsed, rest⟩ := inv.dataUsed other member
    refine ⟨used other ?_ otherUsed, rest⟩
    rintro rfl
    exact notData member
  case dataOnce => exact inv.dataOnce
  case subject =>
    intro creator t subject
    obtain ⟨subjectUsed, subjectData, subjectIdle, small⟩ := inv.subject creator t subject
    exact ⟨used t (notSubject creator t subject) subjectUsed, subjectData, subjectIdle,
      Nat.le_trans small (Nat.le_of_eq length.symm)⟩
  case hidden => exact inv.hidden
  case assigned =>
    intro creator t tid knows
    dsimp only [pallocFreePage]
    rw [Function.update_of_ne (notSubject creator t (knows_subject knows))]
    exact inv.assigned creator t tid knows
  case apart => exact inv.apart
  case returned => exact inv.returned

theorem inv_free_page (inv : Inv m) {page : Nat} (member : page ∈ m.data) :
    Inv { pallocFreePage m page with data := m.data.erase page } := by
  obtain ⟨used, notThread, notIdle⟩ := inv.dataUsed page member
  have gone : page ∉ m.data.erase page := inv.dataOnce.not_mem_erase
  have dropped : Inv { m with data := m.data.erase page } :=
    { inv with
      dataUsed := fun other within => inv.dataUsed other (List.mem_of_mem_erase within)
      dataOnce := inv.dataOnce.erase page
      subject := by
        intro creator t subject
        obtain ⟨subjectUsed, subjectData, rest⟩ := inv.subject creator t subject
        exact ⟨subjectUsed, fun within => subjectData (List.mem_of_mem_erase within), rest⟩ }
  apply inv_release dropped (used_lt used) notThread gone notIdle
  rintro creator t subject rfl
  exact (inv.subject creator t subject).2.1 member

theorem inv_store (inv : Inv m) {page : Nat} (member : page ∈ m.data) (word : Int) :
    Inv { m with tidWord := Function.update m.tidWord page word } := by
  apply inv_word inv word m.nextTid
  intro creator tid knows
  exact (inv.subject creator page (knows_subject knows)).2.1 member

/-- The running thread leaves the processor for good. -/
theorem inv_leave (inv : Inv m) : Inv (schedule m) ∧
    (m.current ≠ m.idle → m.current ∉ (schedule m).threads) := by
  obtain ⟨notQueued, queuesOnce⟩ := List.nodup_cons.mp inv.threadsOnce
  obtain ⟨usedMap, initial, idle, data, pc, tidWord, returns⟩ := @schedule_frame m
  obtain ⟨onceAfter, apartAfter⟩ := schedule_once queuesOnce inv.idleApart
  refine ⟨inv_moved inv usedMap initial idle data pc tidWord returns ?_ onceAfter apartAfter, ?_⟩
  · intro page member
    rcases schedule_threads member with queued | rest
    · exact .inl (List.mem_cons_of_mem _ queued)
    · exact .inr rest
  · intro notIdle member
    rcases schedule_threads member with queued | rest
    · exact notQueued queued
    · exact notIdle rest

theorem inv_exit (inv : Inv m) (notIdle : m.current ≠ m.idle) (late : ExitsLate m .exit) :
    Inv (if m.current = m.initial then schedule m
      else pallocFreePage (schedule m) m.current) := by
  obtain ⟨left, gone⟩ := inv_leave inv
  by_cases isInitial : m.current = m.initial
  · rw [if_pos isInitial]
    exact left
  · rw [if_neg isInitial]
    obtain ⟨usedMap, _, idle, data, pc, _, _⟩ := @schedule_frame m
    have used : Used m m.current :=
      (inv.threadsUsed m.current List.mem_cons_self).resolve_right isInitial
    apply inv_release left
    · rw [usedMap]
      exact used_lt used
    · exact gone notIdle
    · rw [data]
      exact fun member => (inv.dataUsed _ member).2.1 List.mem_cons_self
    · rw [idle]
      exact notIdle
    · rw [pc]
      rintro creator t subject rfl
      exact late rfl creator (inv.subject creator _ subject).2.2.2 subject

theorem inv_returned_error (inv : Inv m) :
    Inv { m with returns := (none, tidError) :: m.returns } := by
  refine { inv with returned := ?_ }
  intro entry member
  rcases List.mem_cons.mp member with rfl | earlier
  · rfl
  · exact inv.returned entry earlier

theorem body_step_inv (inv : Inv m) (notIdle : m.current ≠ m.idle) {action : Action}
    (late : ExitsLate m action) (taken : bodyStep m action = some next) : Inv next := by
  cases action with
  | create =>
      unfold bodyStep at taken
      cases got : pallocGetPage m with
      | none =>
          rw [got] at taken
          cases taken
          exact inv_returned_error inv
      | some pair =>
          rw [got] at taken
          cases taken
          exact inv_create inv got
  | block =>
      cases taken
      exact inv_block inv notIdle
  | exit =>
      cases taken
      exact inv_exit inv notIdle late
  | getPage =>
      obtain ⟨pair, got, rfl⟩ := Option.map_eq_some_iff.mp taken
      exact inv_get_page inv got
  | store page word =>
      obtain ⟨member, eq⟩ := Option.ite_none_right_eq_some.mp taken
      cases eq
      exact inv_store inv member word
  | freePage page =>
      obtain ⟨member, eq⟩ := Option.ite_none_right_eq_some.mp taken
      cases eq
      exact inv_free_page inv member
  | allocateTid => cases taken
  | unblock => cases taken
  | readTid => cases taken
  | yield => cases taken
  | wake page => cases taken

theorem step_inv (inv : Inv m) {action : Action} (late : ExitsLate m action)
    (taken : step m action = some next) : Inv next := by
  unfold step at taken
  split at taken
  · have after := inv_yield inv
    split at taken <;> cases taken
    · rwa [if_pos ‹_›] at after
    · rwa [if_neg ‹_›] at after
  · obtain ⟨member, eq⟩ := Option.ite_none_right_eq_some.mp taken
    cases eq
    exact inv_wake inv member
  · obtain ⟨notIdle, eq⟩ := Option.ite_none_left_eq_some.mp taken
    cases eq
    exact inv_block inv notIdle
  · next at_ =>
    cases taken
    exact inv_allocate inv at_
  · next at_ =>
    cases taken
    exact inv_unblock inv at_
  · next at_ =>
    cases taken
    exact inv_read inv at_
  · obtain ⟨notIdle, bodyTaken⟩ := Option.ite_none_left_eq_some.mp taken
    exact body_step_inv inv notIdle late bodyTaken
  · cases taken

end Steps

theorem boot_inv (pages : Nat) : Inv (boot pages) := by
  constructor
  case outside => simp [boot]
  case idleUsed => rfl
  case threadsUsed =>
    intro page member
    exact .inr (List.mem_singleton.mp member)
  case threadsOnce => exact List.nodup_cons.mpr ⟨List.not_mem_nil, List.nodup_nil⟩
  case idleApart => exact List.not_mem_nil
  case dataUsed => exact nofun
  case dataOnce => exact List.nodup_nil
  case subject => exact nofun
  case hidden =>
    intro creator t hides
    cases hides_subject hides
  case assigned =>
    intro creator t tid knows
    cases knows_subject knows
  case apart => exact nofun
  case returned => exact nofun

/-- As long as no thread exits before its creator has read its tid, `thread_create` returns
the tid assigned to the new thread, or `TID_ERROR` when there is no page for it. -/
theorem thread_create_returns_assigned_tid (pages : Nat) (m : Machine)
    (run : Reaches step ExitsLate (boot pages) m) : ReturnsTid m := by
  have inv := reaches_invariant Inv (boot_inv pages)
    (fun _ _ _ inv late taken => step_inv inv late taken) run
  exact inv.returned

/-- The new thread runs and exits after `thread_create` has returned. -/
theorem thread_create_returns_before_exit :
    ∃ m, Reaches step ExitsLate (boot 2) m ∧ m.returns = [(some 3, 3)] ∧ ReturnsTid m := by
  obtain ⟨m, run, check⟩ := @reaches_of_check _ _ step ExitsLate _ (boot 2)
    [.create, .allocateTid, .unblock, .readTid, .yield, .exit]
    (fun m => m.returns == [(some 3, 3)]) (by decide)
  exact ⟨m, run, eq_of_beq check, thread_create_returns_assigned_tid 2 m run⟩

/-- The new thread runs and exits first: its page has been filled with `0xcc`. -/
theorem thread_create_reads_freed_page :
    ∃ m, Reaches step (fun _ _ => True) (boot 2) m ∧
      m.returns = [(some 3, freedWord)] ∧ ¬ReturnsTid m := by
  obtain ⟨m, run, check⟩ := @reaches_of_check _ _ step (fun _ _ => True) _ (boot 2)
    [.create, .allocateTid, .unblock, .yield, .exit, .readTid]
    (fun m => m.returns == [(some 3, freedWord)]) (by decide)
  have returns : m.returns = [(some 3, freedWord)] := eq_of_beq check
  refine ⟨m, run, returns, fun all => ?_⟩
  have wrong := all (some 3, freedWord) (by rw [returns]; exact List.mem_cons_self)
  exact absurd wrong (by decide)

end UtSystems.Threads.ThreadCreate
