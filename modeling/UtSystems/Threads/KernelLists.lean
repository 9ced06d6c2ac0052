import UtSystems.Lib.MemoryWords
import UtSystems.Threads.PageAllocator

/-!
# Kernel lists in memory

The operations of lib/kernel/list.c on a byte memory. A `struct list` is its head followed by
its tail, and an element is its two pointers. The operations keep a well-formed list well formed
and write to nothing but the links of the elements that they touch.
-/

namespace UtSystems.Threads.KernelLists

open Lib.LinkedList Lib.MemoryWords Threads.PageAllocator

set_option autoImplicit false

def prevOf (m : Memory) (elem : Nat) : Nat := loadWord m elem
def nextOf (m : Memory) (elem : Nat) : Nat := loadWord m (elem + 4)

def setPrev (m : Memory) (elem value : Nat) : Memory := storeWord m elem value
def setNext (m : Memory) (elem value : Nat) : Memory := storeWord m (elem + 4) value

def headOf (list : Nat) : Nat := list
def tailOf (list : Nat) : Nat := list + 8

def isInterior (m : Memory) (elem : Nat) : Bool :=
  elem != 0 && prevOf m elem != 0 && nextOf m elem != 0

def isTail (m : Memory) (elem : Nat) : Bool :=
  elem != 0 && prevOf m elem != 0 && nextOf m elem == 0

def listInit (m : Memory) (list : Nat) : Except Panic Memory :=
  if list = 0 then .error .assertion
  else .ok (setNext (setPrev (setNext (setPrev m (headOf list) 0) (headOf list) (tailOf list))
    (tailOf list) (headOf list)) (tailOf list) 0)

def listBegin (m : Memory) (list : Nat) : Except Panic Nat :=
  if list = 0 then .error .assertion else .ok (nextOf m (headOf list))

def listEnd (list : Nat) : Except Panic Nat :=
  if list = 0 then .error .assertion else .ok (tailOf list)

def listEmpty (m : Memory) (list : Nat) : Except Panic Bool := do
  return (← listBegin m list) == (← listEnd list)

def listInsert (m : Memory) (before elem : Nat) : Except Panic Memory :=
  if !(isInterior m before || isTail m before) then .error .assertion
  else if elem = 0 then .error .assertion
  else
    let m := setPrev m elem (prevOf m before)
    let m := setNext m elem before
    let m := setNext m (prevOf m before) elem
    .ok (setPrev m before elem)

def listPushFront (m : Memory) (list elem : Nat) : Except Panic Memory := do
  listInsert m (← listBegin m list) elem

def listPushBack (m : Memory) (list elem : Nat) : Except Panic Memory := do
  listInsert m (← listEnd list) elem

/-- Returns the element behind the removed one too. -/
def listRemove (m : Memory) (elem : Nat) : Except Panic (Nat × Memory) :=
  if !isInterior m elem then .error .assertion
  else
    let m := setNext m (prevOf m elem) (nextOf m elem)
    let m := setPrev m (nextOf m elem) (prevOf m elem)
    .ok (nextOf m elem, m)

def listFront (m : Memory) (list : Nat) : Except Panic Nat := do
  if ← listEmpty m list then throw .assertion
  else return nextOf m (headOf list)

def listPopFront (m : Memory) (list : Nat) : Except Panic (Nat × Memory) := do
  let front ← listFront m list
  let (_, m) ← listRemove m front
  return (front, m)

/-- The list has these elements, in this order. -/
def HasElems (m : Memory) (list : Nat) (elems : List Nat) : Prop :=
  IsList (linksOf m) 0 (headOf list) (tailOf list) elems

/-- The elements of the list and its sentinels. -/
def members (list : Nat) (elems : List Nat) : Set Nat :=
  {x | x ∈ headOf list :: (elems ++ [tailOf list])}

section Operations

variable {m : Memory} {list elem before : Nat} {elems : List Nat} {space : Set Nat}

theorem head_member : headOf list ∈ members list elems := List.mem_cons_self

theorem tail_member : tailOf list ∈ members list elems := by
  simp [members]

theorem elem_member (member : elem ∈ elems) : elem ∈ members list elems :=
  List.mem_cons_of_mem _ (List.mem_append_left _ member)

theorem member_cases (member : elem ∈ members list elems) :
    elem = headOf list ∨ elem ∈ elems ∨ elem = tailOf list := by
  simp only [members, Set.mem_ofPred_eq, List.mem_cons, List.mem_append, List.not_mem_nil,
    or_false] at member
  exact member

theorem members_mono {fewer : List Nat} (less : ∀ x ∈ fewer, x ∈ elems) :
    members list fewer ⊆ members list elems := by
  intro x member
  rcases member_cases member with isHead | inside | isTail_
  · exact isHead ▸ head_member
  · exact elem_member (less x inside)
  · exact isTail_ ▸ tail_member

theorem member_nonnull (has : HasElems m list elems) (member : elem ∈ members list elems) :
    elem ≠ 0 := by
  intro null
  exact has.nonnull (null ▸ member)

/-- A list stays as it is as long as nobody writes to its links. -/
theorem has_elems_frame {after : Memory} {cells : Set Nat} (has : HasElems m list elems)
    (same : SameOutside cells m after) (apart : ∀ x ∈ cells, x ∉ linkCells (members list elems)) :
    HasElems after list elems := by
  apply is_list_same_outside has same
  intro elem member x inside
  by_contra between
  exact apart x inside ⟨elem, member, by omega, by omega⟩

theorem interior_links (has : HasElems m list elems) (member : elem ∈ elems) :
    prevOf m elem ∈ members list elems ∧ nextOf m elem ∈ members list elems := by
  obtain ⟨back, next⟩ := is_list_neighbours has member
  constructor
  · change (linksOf m).prev elem ∈ members list elems
    rcases List.mem_cons.mp back with isHead | inside
    · rw [isHead]
      exact head_member
    · exact elem_member inside
  · change (linksOf m).next elem ∈ members list elems
    exact List.mem_cons_of_mem _ next

theorem interior_of_member (has : HasElems m list elems) (member : elem ∈ elems) :
    isInterior m elem = true := by
  obtain ⟨back, next⟩ := interior_links has member
  have here := member_nonnull has (elem_member member)
  have backNonnull := member_nonnull has back
  have nextNonnull := member_nonnull has next
  simp [isInterior, here, backNonnull, nextNonnull]

theorem tail_prev (has : HasElems m list elems) : prevOf m (tailOf list) ∈ members list elems := by
  change (linksOf m).prev (tailOf list) ∈ members list elems
  rw [is_list_back has]
  have last := List.getLast_mem (List.cons_ne_nil (headOf list) elems)
  rcases List.mem_cons.mp last with isHead | inside
  · rw [isHead]
    exact head_member
  · exact elem_member inside

theorem is_tail_tail (has : HasElems m list elems) : isTail m (tailOf list) = true := by
  have here := member_nonnull has (@tail_member list elems)
  have backNonnull := member_nonnull has (tail_prev has)
  have last : nextOf m (tailOf list) = 0 := has.last
  simp [isTail, here, backNonnull, last]

theorem head_next (has : HasElems m list elems) :
    nextOf m (headOf list) = (elems ++ [tailOf list]).head (by simp) := is_list_front has

/-- The first element, or the tail. -/
theorem head_next_member (has : HasElems m list elems) :
    nextOf m (headOf list) ∈ elems ++ [tailOf list] := by
  rw [head_next has]
  exact List.head_mem _

/-- The four stores of `list_insert` are the insertion into the links. -/
theorem list_insert_links (spaced : Spaced space) (elemIn : elem ∈ space)
    (beforeIn : before ∈ space) (backIn : prevOf m before ∈ space) (apart : before ≠ elem)
    (nonnull : elem ≠ 0) (place : (isInterior m before || isTail m before) = true) :
    ∃ after, listInsert m before elem = .ok after ∧
      ReadsAs space after (insertBefore (linksOf m) before elem) ∧
      SameOutside (linkCells {elem, before, prevOf m before}) m after := by
  have small : ∀ x ∈ space, x < 2 ^ 32 := by
    intro x member
    have := spaced.fits x member
    omega
  let m1 := setPrev m elem (prevOf m before)
  let m2 := setNext m1 elem before
  have first := reads_set_prev spaced (@reads_as_links m space) elemIn (small _ backIn)
  have second := reads_set_next spaced first elemIn (small _ beforeIn)
  have back : prevOf m2 before = prevOf m before := by
    have read : prevOf m2 before = Function.update (linksOf m).prev elem (prevOf m before) before :=
      (second before beforeIn).1
    rw [Function.update_of_ne apart] at read
    exact read
  have third := reads_set_next spaced second backIn (small _ elemIn)
  have fourth := reads_set_prev spaced third beforeIn (small _ elemIn)
  have elemCells : ∀ offset, offset ≤ 4 →
      Set.Ico (elem + offset) (elem + offset + 4) ⊆
        linkCells {elem, before, prevOf m before} := by
    intro offset inside x member
    rw [Set.mem_Ico] at member
    exact ⟨elem, by simp, by omega, by omega⟩
  have beforeCells : Set.Ico before (before + 4) ⊆ linkCells {elem, before, prevOf m before} := by
    intro x member
    rw [Set.mem_Ico] at member
    exact ⟨before, by simp, by omega, by omega⟩
  have backCells : Set.Ico (prevOf m before + 4) (prevOf m before + 4 + 4) ⊆
      linkCells {elem, before, prevOf m before} := by
    intro x member
    rw [Set.mem_Ico] at member
    exact ⟨prevOf m before, by simp, by omega, by omega⟩
  refine ⟨setPrev (setNext m2 (prevOf m before) elem) before elem, ?_, ?_, ?_⟩
  · unfold listInsert
    rw [place, Bool.not_true, if_neg Bool.false_ne_true, if_neg nonnull]
    change Except.ok (setPrev (setNext m2 (prevOf m2 before) elem) before elem) = _
    rw [back]
  · exact fourth
  · apply same_outside_trans (same_outside_mono store_same_outside (elemCells 0 (by omega)))
    apply same_outside_trans (same_outside_mono store_same_outside (elemCells 4 (by omega)))
    apply same_outside_trans (same_outside_mono store_same_outside backCells)
    exact same_outside_mono store_same_outside beforeCells

theorem list_begin_ok (has : HasElems m list elems) :
    listBegin m list = .ok (nextOf m (headOf list)) :=
  if_neg (member_nonnull has (@head_member list elems))

theorem list_end_ok (has : HasElems m list elems) : listEnd list = .ok (tailOf list) :=
  if_neg (member_nonnull has (@head_member list elems))

theorem members_grown (within : members list elems ⊆ space) (elemIn : elem ∈ space)
    {grown : List Nat} (same : ∀ x, x ∈ grown ↔ x = elem ∨ x ∈ elems) :
    members list grown ⊆ space := by
  intro x member
  rcases member_cases member with isHead | inside | isTail_
  · exact isHead ▸ within head_member
  · rcases (same x).mp inside with isElem | deeper
    · exact isElem ▸ elemIn
    · exact within (elem_member deeper)
  · exact isTail_ ▸ within tail_member

/-- An insertion touches the new element and two members. -/
theorem touched_members {grown : List Nat} (same : ∀ x, x ∈ grown ↔ x = elem ∨ x ∈ elems)
    {second third : Nat} (secondIn : second ∈ members list elems)
    (thirdIn : third ∈ members list elems) :
    linkCells {elem, second, third} ⊆ linkCells (members list grown) := by
  have wider : members list elems ⊆ members list grown :=
    members_mono fun x inside => (same x).mpr (.inr inside)
  apply link_cells_mono
  intro x member
  rcases member with isElem | isSecond | isThird
  · exact isElem ▸ elem_member ((same elem).mpr (.inl rfl))
  · exact isSecond ▸ wider secondIn
  · exact Set.mem_singleton_iff.mp isThird ▸ wider thirdIn

theorem list_push_front_ok (spaced : Spaced space) (within : members list elems ⊆ space)
    (has : HasElems m list elems) (elemIn : elem ∈ space) (nonnull : elem ≠ 0)
    (fresh : elem ∉ members list elems) :
    ∃ after, listPushFront m list elem = .ok after ∧ HasElems after list (elem :: elems) ∧
      SameOutside (linkCells (members list (elem :: elems))) m after := by
  have second := head_next_member has
  have secondMember : nextOf m (headOf list) ∈ members list elems := List.mem_cons_of_mem _ second
  have back : prevOf m (nextOf m (headOf list)) = headOf list := by
    obtain ⟨first, rest, split⟩ := List.exists_cons_of_ne_nil
      (List.append_ne_nil_of_right_ne_nil elems (List.cons_ne_nil (tailOf list) []))
    have chain := has.chain
    rw [split] at chain
    have linked := (List.isChain_cons_cons.mp chain).1
    have next : nextOf m (headOf list) = first := linked.1
    rw [next]
    exact linked.2
  have backMember : prevOf m (nextOf m (headOf list)) ∈ members list elems := by
    rw [back]
    exact head_member
  have place : (isInterior m (nextOf m (headOf list)) || isTail m (nextOf m (headOf list))) =
      true := by
    rcases List.mem_append.mp second with inside | isTail_
    · rw [interior_of_member has inside]
      rfl
    · rw [List.mem_singleton.mp isTail_, is_tail_tail has, Bool.or_true]
  have apart : nextOf m (headOf list) ≠ elem := by
    intro same
    exact fresh (same ▸ secondMember)
  have grown : ∀ x, x ∈ elem :: elems ↔ x = elem ∨ x ∈ elems := fun x => List.mem_cons
  obtain ⟨after, inserted, reads, same⟩ := list_insert_links spaced elemIn (within secondMember)
    (within backMember) apart nonnull place
  refine ⟨after, ?_, ?_, ?_⟩
  · unfold listPushFront
    rw [list_begin_ok has]
    exact inserted
  · exact is_list_reads (is_list_push_front has nonnull fresh) reads
      (members_grown within elemIn grown)
  · exact same_outside_mono same (touched_members grown secondMember backMember)

theorem list_push_back_ok (spaced : Spaced space) (within : members list elems ⊆ space)
    (has : HasElems m list elems) (elemIn : elem ∈ space) (nonnull : elem ≠ 0)
    (fresh : elem ∉ members list elems) :
    ∃ after, listPushBack m list elem = .ok after ∧ HasElems after list (elems ++ [elem]) ∧
      SameOutside (linkCells (members list (elems ++ [elem]))) m after := by
  have backMember := tail_prev has
  have place : (isInterior m (tailOf list) || isTail m (tailOf list)) = true := by
    rw [is_tail_tail has, Bool.or_true]
  have apart : tailOf list ≠ elem := by
    intro same
    exact fresh (same ▸ tail_member)
  have grown : ∀ x, x ∈ elems ++ [elem] ↔ x = elem ∨ x ∈ elems := by
    intro x
    rw [List.mem_append, List.mem_singleton, or_comm]
  obtain ⟨after, inserted, reads, same⟩ := list_insert_links spaced elemIn (within tail_member)
    (within backMember) apart nonnull place
  refine ⟨after, ?_, ?_, ?_⟩
  · unfold listPushBack
    rw [list_end_ok has]
    exact inserted
  · exact is_list_reads (is_list_push_back has nonnull fresh) reads
      (members_grown within elemIn grown)
  · exact same_outside_mono same (touched_members grown tail_member backMember)

theorem list_remove_ok (spaced : Spaced space) (within : members list elems ⊆ space)
    (has : HasElems m list elems) (member : elem ∈ elems) :
    ∃ after, listRemove m elem = .ok (nextOf m elem, after) ∧
      HasElems after list (elems.erase elem) ∧
      SameOutside (linkCells (members list elems)) m after := by
  obtain ⟨backMember, nextMember⟩ := interior_links has member
  have elemIn := within (elem_member member)
  have small : ∀ x ∈ space, x < 2 ^ 32 := by
    intro x inside
    have := spaced.fits x inside
    omega
  let m1 := setNext m (prevOf m elem) (nextOf m elem)
  let m2 := setPrev m1 (nextOf m elem) (prevOf m elem)
  have first := reads_set_next spaced (@reads_as_links m space) (within backMember)
    (small _ (within nextMember))
  have second := reads_set_prev spaced first (within nextMember) (small _ (within backMember))
  have nextFirst : nextOf m1 elem = nextOf m elem := by
    have read : nextOf m1 elem =
        Function.update (linksOf m).next (prevOf m elem) (nextOf m elem) elem :=
      (first elem elemIn).2
    rw [read]
    by_cases same : elem = prevOf m elem
    · rw [← same, Function.update_self]
    · exact Function.update_of_ne same _ _
  have prevFirst : prevOf m1 elem = prevOf m elem := (first elem elemIn).1
  have nextSecond : nextOf m2 elem = nextOf m elem := by
    have read : nextOf m2 elem =
        Function.update (linksOf m).next (prevOf m elem) (nextOf m elem) elem :=
      (second elem elemIn).2
    have before : nextOf m1 elem =
        Function.update (linksOf m).next (prevOf m elem) (nextOf m elem) elem :=
      (first elem elemIn).2
    rw [read, ← before, nextFirst]
  have backCells : Set.Ico (prevOf m elem + 4) (prevOf m elem + 4 + 4) ⊆
      linkCells (members list elems) := by
    intro x inside
    rw [Set.mem_Ico] at inside
    exact ⟨prevOf m elem, backMember, by omega, by omega⟩
  have nextCells : Set.Ico (nextOf m elem) (nextOf m elem + 4) ⊆
      linkCells (members list elems) := by
    intro x inside
    rw [Set.mem_Ico] at inside
    exact ⟨nextOf m elem, nextMember, by omega, by omega⟩
  have fewer : members list (elems.erase elem) ⊆ space :=
    (members_mono fun _ => List.mem_of_mem_erase).trans within
  refine ⟨m2, ?_, ?_, ?_⟩
  · unfold listRemove
    rw [interior_of_member has member, Bool.not_true, if_neg Bool.false_ne_true]
    change Except.ok (nextOf (setPrev m1 (nextOf m1 elem) (prevOf m1 elem)) elem,
      setPrev m1 (nextOf m1 elem) (prevOf m1 elem)) = _
    rw [nextFirst, prevFirst]
    change Except.ok (nextOf m2 elem, m2) = _
    rw [nextSecond]
  · exact is_list_reads (is_list_remove has member) second fewer
  · exact same_outside_trans (same_outside_mono store_same_outside backCells)
      (same_outside_mono store_same_outside nextCells)

theorem list_empty_iff (has : HasElems m list elems) :
    listEmpty m list = .ok (decide (elems = [])) := by
  unfold listEmpty
  rw [list_begin_ok has, list_end_ok has]
  change Except.ok (nextOf m (headOf list) == tailOf list) = _
  cases elems with
  | nil =>
      have next : nextOf m (headOf list) = tailOf list := head_next has
      rw [next, beq_self_eq_true]
      rfl
  | cons first rest =>
      have next : nextOf m (headOf list) = first := head_next has
      have apart : first ≠ tailOf list := by
        have once := (List.nodup_cons.mp has.distinct).2
        intro same
        exact (List.nodup_cons.mp once).1 (same ▸ by simp)
      rw [next, beq_false_of_ne apart]
      rfl

theorem list_pop_front_ok (spaced : Spaced space) {first : Nat} {rest : List Nat}
    (within : members list (first :: rest) ⊆ space) (has : HasElems m list (first :: rest)) :
    ∃ after, listPopFront m list = .ok (first, after) ∧ HasElems after list rest ∧
      SameOutside (linkCells (members list (first :: rest))) m after := by
  obtain ⟨after, removed, left, same⟩ := list_remove_ok spaced within has List.mem_cons_self
  rw [List.erase_cons_head] at left
  have next : nextOf m (headOf list) = first := head_next has
  refine ⟨after, ?_, left, same⟩
  unfold listPopFront listFront
  rw [list_empty_iff has, next]
  change (listRemove m first >>= fun result => Except.ok (first, result.2)) = _
  rw [removed]
  rfl

/-- The four stores of `list_init`. -/
theorem list_init_ok (nonnull : list ≠ 0) (fits : list + 16 ≤ 2 ^ 32) :
    ∃ after, listInit m list = .ok after ∧ HasElems after list [] ∧
      SameOutside (Set.Ico list (list + 16)) m after := by
  let m1 := setPrev m (headOf list) 0
  let m2 := setNext m1 (headOf list) (tailOf list)
  let m3 := setPrev m2 (tailOf list) (headOf list)
  let m4 := setNext m3 (tailOf list) 0
  have headSmall : headOf list < 2 ^ 32 := by
    unfold headOf
    omega
  have tailSmall : tailOf list < 2 ^ 32 := by
    unfold tailOf
    omega
  have spaced : Spaced {headOf list, tailOf list} := by
    constructor
    · intro x member
      rcases member with isHead | isTail_
      · rw [isHead, headOf]
        omega
      · rw [Set.mem_singleton_iff.mp isTail_, tailOf]
        omega
    · intro x inX y inY different
      unfold headOf tailOf at *
      simp only [Set.mem_insert_iff, Set.mem_singleton_iff] at inX inY
      omega
  have inHead : headOf list ∈ ({headOf list, tailOf list} : Set Nat) := by simp
  have inTail : tailOf list ∈ ({headOf list, tailOf list} : Set Nat) := by simp
  have headTail : headOf list ≠ tailOf list := by
    unfold headOf tailOf
    omega
  have first := reads_set_prev spaced (@reads_as_links m _) inHead (by omega : 0 < 2 ^ 32)
  have second := reads_set_next spaced first inHead tailSmall
  have third := reads_set_prev spaced second inTail headSmall
  have fourth := reads_set_next spaced third inTail (by omega : 0 < 2 ^ 32)
  have cells : ∀ base, list ≤ base → base + 4 ≤ list + 16 →
      Set.Ico base (base + 4) ⊆ Set.Ico list (list + 16) := by
    intro base above below x member
    rw [Set.mem_Ico] at member ⊢
    omega
  have headRead : prevOf m4 (headOf list) = 0 ∧ nextOf m4 (headOf list) = tailOf list := by
    obtain ⟨prev, next⟩ := fourth _ inHead
    constructor
    · have value := Function.update_of_ne headTail (headOf list)
        (Function.update (linksOf m).prev (headOf list) 0)
      rw [Function.update_self] at value
      exact prev.trans value
    · have value := Function.update_of_ne headTail 0
        (Function.update (linksOf m).next (headOf list) (tailOf list))
      rw [Function.update_self] at value
      exact next.trans value
  have tailRead : prevOf m4 (tailOf list) = headOf list ∧ nextOf m4 (tailOf list) = 0 := by
    obtain ⟨prev, next⟩ := fourth _ inTail
    exact ⟨prev.trans (Function.update_self _ _ _), next.trans (Function.update_self _ _ _)⟩
  refine ⟨m4, if_neg nonnull, ?_, ?_⟩
  · exact {
      chain := List.isChain_pair.mpr ⟨headRead.2, tailRead.1⟩
      distinct := by
        rw [List.nil_append, List.nodup_cons, List.mem_singleton]
        exact ⟨headTail, List.pairwise_singleton _ _⟩
      nonnull := by
        unfold headOf tailOf
        simp only [List.nil_append, List.mem_cons, List.not_mem_nil, or_false]
        omega
      first := headRead.1
      last := tailRead.2 }
  · have at0 := cells list (by omega) (by omega)
    have at4 := cells (list + 4) (by omega) (by omega)
    have at8 := cells (list + 8) (by omega) (by omega)
    have at12 := cells (list + 8 + 4) (by omega) (by omega)
    apply same_outside_trans (same_outside_mono store_same_outside at0)
    apply same_outside_trans (same_outside_mono store_same_outside at4)
    apply same_outside_trans (same_outside_mono store_same_outside at8)
    exact same_outside_mono store_same_outside at12

end Operations

end UtSystems.Threads.KernelLists
