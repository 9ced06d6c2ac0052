import Mathlib.Data.List.Chain
import Mathlib.Data.List.Nodup
import Mathlib.Logic.Function.Basic

/-!
# Doubly linked lists with two sentinels

Every element has a link to the one before it and a link to the one behind it. The interior
elements of a list stand between a head and a tail, whose outer links are null; elements that
are in no list may hold anything.
-/

namespace UtSystems.Lib.LinkedList

set_option autoImplicit false

variable {Elem : Type*}

structure Links (Elem : Type*) where
  prev : Elem → Elem
  next : Elem → Elem

def Linked (l : Links Elem) (first second : Elem) : Prop :=
  l.next first = second ∧ l.prev second = first

/-- The elements between `head` and `tail` are these, in this order. -/
structure IsList (l : Links Elem) (null head tail : Elem) (elems : List Elem) : Prop where
  chain : List.IsChain (Linked l) (head :: (elems ++ [tail]))
  distinct : (head :: (elems ++ [tail])).Nodup
  nonnull : null ∉ head :: (elems ++ [tail])
  first : l.prev head = null
  last : l.next tail = null

variable {l other : Links Elem} {null head tail elem before : Elem} {elems front back : List Elem}

/-- Only the links of the elements and sentinels count. -/
theorem is_list_congr (list : IsList l null head tail elems)
    (prev : ∀ x ∈ head :: (elems ++ [tail]), other.prev x = l.prev x)
    (next : ∀ x ∈ head :: (elems ++ [tail]), other.next x = l.next x) :
    IsList other null head tail elems where
  chain := by
    apply list.chain.imp_of_mem_imp
    intro x y inX inY linked
    exact ⟨(next x inX).trans linked.1, (prev y inY).trans linked.2⟩
  distinct := list.distinct
  nonnull := list.nonnull
  first := (prev head List.mem_cons_self).trans list.first
  last := by
    rw [next tail (by simp)]
    exact list.last

section Stretches

/-- A stretch of a chain keeps its links when the inner ones are the same. -/
theorem chain_congr {stretch : List Elem} (chain : List.IsChain (Linked l) stretch)
    (next : ∀ x ∈ stretch.dropLast, other.next x = l.next x)
    (prev : ∀ x ∈ stretch.tail, other.prev x = l.prev x) :
    List.IsChain (Linked other) stretch := by
  induction stretch with
  | nil => exact .nil
  | cons first rest ih =>
      cases rest with
      | nil => exact .singleton first
      | cons second rest =>
          rw [List.isChain_cons_cons] at chain ⊢
          obtain ⟨linked, chain⟩ := chain
          refine ⟨⟨?_, ?_⟩, ih chain ?_ ?_⟩
          · rw [next first (by simp), linked.1]
          · rw [prev second (by simp), linked.2]
          · intro x inside
            exact next x (by simp [inside])
          · intro x inside
            exact prev x (by simpa using .inr inside)

/-- A stretch whose links were exchanged is a chain backwards. -/
theorem chain_reverse {stretch : List Elem} (chain : List.IsChain (Linked l) stretch)
    (prev : ∀ x ∈ stretch.dropLast, other.prev x = l.next x)
    (next : ∀ x ∈ stretch.tail, other.next x = l.prev x) :
    List.IsChain (Linked other) stretch.reverse := by
  have exchanged := @chain_congr _ l ⟨other.next, other.prev⟩ stretch chain prev next
  rw [List.isChain_reverse]
  exact exchanged.imp fun _ _ linked => ⟨linked.2, linked.1⟩

variable {early range late : List Elem} {left right first last : Elem}

theorem tail_ne (once : range.Nodup) (isFirst : range.head? = some first) {x : Elem}
    (inside : x ∈ range.tail) : x ≠ first := by
  cases range with
  | nil => cases isFirst
  | cons head rest =>
      rw [List.head?_cons, Option.some_inj] at isFirst
      intro same
      exact (List.nodup_cons.mp once).1 (isFirst ▸ same ▸ inside)

theorem drop_last_ne (once : range.Nodup) (isLast : range.getLast? = some last) {x : Elem}
    (inside : x ∈ range.dropLast) : x ≠ last := by
  obtain ⟨fewer, rfl⟩ := List.getLast?_eq_some_iff.mp isLast
  rw [List.dropLast_concat] at inside
  intro same
  exact (List.nodup_append.mp once).2.2 x inside last List.mem_cons_self same

/-- Three stretches without a common element, joined by two links. -/
theorem chain_of_parts {one two three : List Elem} {a b c d : Elem}
    (first_ : List.IsChain (Linked l) one) (second : List.IsChain (Linked l) two)
    (third : List.IsChain (Linked l) three) (ends : one.getLast? = some a)
    (begins : two.head? = some b) (stops : two.getLast? = some c) (starts : three.head? = some d)
    (join : Linked l a b) (next : Linked l c d) :
    List.IsChain (Linked l) (one ++ (two ++ three)) := by
  rw [List.isChain_append, List.isChain_append]
  refine ⟨first_, ⟨second, third, ?_⟩, ?_⟩
  · intro x inX y inY
    rw [stops, Option.mem_some] at inX
    rw [starts, Option.mem_some] at inY
    rw [← inX, ← inY]
    exact next
  · intro x inX y inY
    rw [List.head?_append, begins, Option.some_or, Option.mem_some] at inY
    rw [ends, Option.mem_some] at inX
    rw [← inX, ← inY]
    exact join

/-- What is where when a range stands between `left` and `right`. -/
structure Parted (early range late : List Elem) (left right : Elem) : Prop where
  onceEarly : (early ++ [left]).Nodup
  onceRange : range.Nodup
  onceLate : (right :: late).Nodup
  earlyRange : ∀ x ∈ range, x ∉ early ++ [left]
  lateRange : ∀ x ∈ range, x ∉ right :: late
  earlyRight : right ∉ early ++ [left]
  rangeLeft : left ∉ range
  rangeRight : right ∉ range
  lateLeft : left ∉ right :: late

theorem parts_apart (distinct : ((early ++ [left]) ++ (range ++ right :: late)).Nodup) :
    Parted early range late left right := by
  obtain ⟨onceEarly, onceRest, apart⟩ := List.nodup_append.mp distinct
  obtain ⟨onceRange, onceLate, apartLate⟩ := List.nodup_append.mp onceRest
  have lateLeft : left ∉ range ++ right :: late :=
    fun inside => apart left (by simp) left inside rfl
  rw [List.mem_append, not_or] at lateLeft
  exact {
    onceEarly := onceEarly
    onceRange := onceRange
    onceLate := onceLate
    earlyRange := fun x inRange inside => apart x inside x (List.mem_append_left _ inRange) rfl
    lateRange := fun x inRange inside => apartLate x inRange x inside rfl
    earlyRight := fun inside => apart right inside right (by simp) rfl
    rangeLeft := lateLeft.1
    rangeRight := fun inside => apartLate right inside right List.mem_cons_self rfl
    lateLeft := lateLeft.2 }

theorem aside {x y : Elem} {part : List Elem} (inside : x ∈ part) (outside : y ∉ part) : x ≠ y :=
  fun same => outside (same ▸ inside)

end Stretches

section Operations

variable [DecidableEq Elem]

def insertBefore (l : Links Elem) (before elem : Elem) : Links Elem where
  prev := Function.update (Function.update l.prev elem (l.prev before)) before elem
  next := Function.update (Function.update l.next elem before) (l.prev before) elem

def remove (l : Links Elem) (elem : Elem) : Links Elem where
  prev := Function.update l.prev (l.next elem) (l.prev elem)
  next := Function.update l.next (l.prev elem) (l.next elem)

/-- Takes the range from `first` to `last` out. -/
def cut (l : Links Elem) (first last : Elem) : Links Elem where
  prev := Function.update l.prev (l.next last) (l.prev first)
  next := Function.update l.next (l.prev first) (l.next last)

/-- Puts the range from `first` to `last` in before `before`. -/
def paste (l : Links Elem) (before first last : Elem) : Links Elem where
  prev := Function.update (Function.update l.prev first (l.prev before)) before last
  next := Function.update (Function.update l.next last before) (l.prev before) first

variable {early range late : List Elem} {left right first last : Elem}

theorem chain_paste
    (chain : List.IsChain (Linked l) (early ++ left :: right :: late))
    (inner : List.IsChain (Linked l) range) (isFirst : range.head? = some first)
    (isLast : range.getLast? = some last)
    (distinct : ((early ++ [left]) ++ (range ++ right :: late)).Nodup) :
    List.IsChain (Linked (paste l right first last)) ((early ++ [left]) ++ (range ++ right :: late)) := by
  obtain ⟨before, linked, after⟩ := List.isChain_append_cons_cons.mp chain
  have back : l.prev right = left := linked.2
  have inFirst : first ∈ range := List.mem_of_head? isFirst
  have inLast : last ∈ range := List.mem_of_getLast? isLast
  have parted := parts_apart distinct
  have next : ∀ x, x ≠ last → x ≠ left → (paste l right first last).next x = l.next x := by
    intro x notLast notLeft
    simp only [paste, back]
    rw [Function.update_of_ne notLeft, Function.update_of_ne notLast]
  have prev : ∀ x, x ≠ first → x ≠ right → (paste l right first last).prev x = l.prev x := by
    intro x notFirst notRight
    simp only [paste]
    rw [Function.update_of_ne notRight, Function.update_of_ne notFirst]
  apply chain_of_parts
  · apply chain_congr before
    · intro x inside
      have whole := List.dropLast_subset _ inside
      exact next x (aside whole (parted.earlyRange last inLast)) (drop_last_ne parted.onceEarly List.getLast?_concat inside)
    · intro x inside
      have whole := List.mem_of_mem_tail inside
      exact prev x (aside whole (parted.earlyRange first inFirst)) (aside whole parted.earlyRight)
  · apply chain_congr inner
    · intro x inside
      exact next x (drop_last_ne parted.onceRange isLast inside)
        (aside (List.dropLast_subset _ inside) parted.rangeLeft)
    · intro x inside
      exact prev x (tail_ne parted.onceRange isFirst inside)
        (aside (List.mem_of_mem_tail inside) parted.rangeRight)
  · apply chain_congr after
    · intro x inside
      have whole := List.dropLast_subset _ inside
      exact next x (aside whole (parted.lateRange last inLast)) (aside whole parted.lateLeft)
    · intro x inside
      exact prev x (aside (List.mem_of_mem_tail inside) (parted.lateRange first inFirst))
        (tail_ne parted.onceLate List.head?_cons inside)
  · exact List.getLast?_concat
  · exact isFirst
  · exact isLast
  · exact List.head?_cons
  · have apartRight : first ≠ right := aside inFirst parted.rangeRight
    simp [Linked, paste, back, apartRight]
  · have apartLeft : last ≠ left := aside inLast parted.rangeLeft
    simp [Linked, paste, back, apartLeft]

/-- The rest is joined up, and the range keeps its inner links. -/
theorem chain_cut
    (chain : List.IsChain (Linked l) ((early ++ [left]) ++ (range ++ right :: late)))
    (isFirst : range.head? = some first) (isLast : range.getLast? = some last)
    (distinct : ((early ++ [left]) ++ (range ++ right :: late)).Nodup) :
    List.IsChain (Linked (cut l first last)) (early ++ left :: right :: late) ∧
      List.IsChain (Linked (cut l first last)) range := by
  have parted := parts_apart distinct
  have inFirst : first ∈ range := List.mem_of_head? isFirst
  have inLast : last ∈ range := List.mem_of_getLast? isLast
  obtain ⟨chainEarly, chainRest, joined⟩ := List.isChain_append.mp chain
  obtain ⟨chainRange, chainLate, followed⟩ := List.isChain_append.mp chainRest
  have back : l.prev first = left := by
    apply (joined left (by simp) first _).2
    rw [List.head?_append, isFirst]
    rfl
  have ahead : l.next last = right := (followed last (by simp [isLast]) right (by simp)).1
  have next : ∀ x, x ≠ left → (cut l first last).next x = l.next x := by
    intro x notLeft
    simp only [cut, back]
    exact Function.update_of_ne notLeft ..
  have prev : ∀ x, x ≠ right → (cut l first last).prev x = l.prev x := by
    intro x notRight
    simp only [cut, ahead]
    exact Function.update_of_ne notRight ..
  constructor
  · rw [List.isChain_append_cons_cons]
    refine ⟨chain_congr chainEarly ?_ ?_, ?_, chain_congr chainLate ?_ ?_⟩
    · intro x inside
      exact next x (drop_last_ne parted.onceEarly List.getLast?_concat inside)
    · intro x inside
      exact prev x (aside (List.mem_of_mem_tail inside) parted.earlyRight)
    · simp [Linked, cut, back, ahead]
    · intro x inside
      exact next x (aside (List.dropLast_subset _ inside) parted.lateLeft)
    · intro x inside
      exact prev x (tail_ne parted.onceLate List.head?_cons inside)
  · apply chain_congr chainRange
    · intro x inside
      exact next x (aside (List.dropLast_subset _ inside) parted.rangeLeft)
    · intro x inside
      exact prev x (aside (List.mem_of_mem_tail inside) parted.rangeRight)

end Operations

section Lists

variable {xs ys range : List Elem} {first last : Elem}

/-- The links of an element of the list lead to the list and its sentinels. -/
theorem is_list_neighbours (list : IsList l null head tail elems) (member : elem ∈ elems) :
    l.prev elem ∈ head :: elems ∧ l.next elem ∈ elems ++ [tail] := by
  obtain ⟨early, late, split⟩ := List.append_of_mem member
  have chain := list.chain
  rw [split, List.append_assoc, List.cons_append, ← List.cons_append] at chain
  constructor
  · have before : List.IsChain (Linked l) ((head :: early) ++ [elem]) :=
      (List.isChain_split.mp chain).1
    rw [← List.dropLast_append_getLast (List.cons_ne_nil head early), List.append_assoc] at before
    have linked := (List.isChain_append_cons_cons.mp before).2.1
    rw [linked.2, split, ← List.cons_append]
    exact List.mem_append_left _ (List.getLast_mem _)
  · have after : List.IsChain (Linked l) (elem :: (late ++ [tail])) :=
      (List.isChain_split.mp chain).2
    rw [split]
    cases late with
    | nil =>
        have linked := (List.isChain_cons_cons.mp after).1
        rw [linked.1]
        exact List.mem_append_right _ List.mem_cons_self
    | cons second rest =>
        have linked := (List.isChain_cons_cons.mp after).1
        rw [linked.1]
        simp

/-- The links determine the list. -/
theorem is_list_unique {others : List Elem} (list : IsList l null head tail elems)
    (same : IsList l null head tail others) : elems = others := by
  have walk : ∀ (first : Elem) (elems others : List Elem), tail ∉ elems → tail ∉ others →
      List.IsChain (Linked l) (first :: (elems ++ [tail])) →
      List.IsChain (Linked l) (first :: (others ++ [tail])) → elems = others := by
    intro first elems
    induction elems generalizing first with
    | nil =>
        intro others _ out chain otherChain
        cases others with
        | nil => rfl
        | cons second rest =>
            have isTail := (List.isChain_cons_cons.mp chain).1.1
            have isSecond := (List.isChain_cons_cons.mp otherChain).1.1
            exact absurd (isTail.symm.trans isSecond ▸ List.mem_cons_self) out
    | cons second rest ih =>
        intro others out otherOut chain otherChain
        obtain ⟨linked, chain⟩ := List.isChain_cons_cons.mp chain
        cases others with
        | nil =>
            have isTail := (List.isChain_cons_cons.mp otherChain).1.1
            exact absurd (isTail.symm.trans linked.1 ▸ List.mem_cons_self) out
        | cons third late =>
            obtain ⟨otherLinked, otherChain⟩ := List.isChain_cons_cons.mp otherChain
            have isSecond : second = third := linked.1.symm.trans otherLinked.1
            subst isSecond
            rw [ih second late (fun inside => out (List.mem_cons_of_mem _ inside))
              (fun inside => otherOut (List.mem_cons_of_mem _ inside)) chain otherChain]
  have out : ∀ {some_ : List Elem}, IsList l null head tail some_ → tail ∉ some_ := by
    intro some_ isList inside
    have once := (List.nodup_cons.mp isList.distinct).2
    exact (List.nodup_append.mp once).2.2 tail inside tail List.mem_cons_self rfl
  exact walk head elems others (out list) (out same) list.chain same.chain

theorem is_list_front (list : IsList l null head tail elems) :
    l.next head = (elems ++ [tail]).head (List.append_ne_nil_of_right_ne_nil _ (by simp)) := by
  have chain := list.chain
  cases elems with
  | nil => exact (List.isChain_cons_cons.mp chain).1.1
  | cons second rest => exact (List.isChain_cons_cons.mp chain).1.1

theorem is_list_back (list : IsList l null head tail elems) :
    l.prev tail = (head :: elems).getLast (List.cons_ne_nil _ _) := by
  have chain := list.chain
  rw [← List.cons_append, ← List.dropLast_append_getLast (List.cons_ne_nil head elems),
    List.append_assoc] at chain
  exact (List.isChain_append_cons_cons.mp chain).2.1.2

/-- Wherever a list is split, the links lead across. -/
theorem is_list_join (list : IsList l null head tail (xs ++ ys))
    (isLast : (head :: xs).getLast? = some last) (isFirst : (ys ++ [tail]).head? = some first) :
    Linked l last first := by
  have chain := list.chain
  rw [List.append_assoc, ← List.cons_append, List.isChain_append] at chain
  exact chain.2.2 last isLast first isFirst

theorem head_at : (ys ++ [tail]).head? = some (ys.headD tail) := by
  cases ys <;> rfl

/-- The same by the elements themselves: the last of `xs` or the head, the first of `ys` or the
tail. -/
theorem is_list_at (list : IsList l null head tail (xs ++ ys)) :
    Linked l (xs.getLastD head) (ys.headD tail) := by
  apply is_list_join list
  · rw [List.getLast?_cons, List.getLastD_eq_getLast?]
  · exact head_at

theorem head_at_mem : ys.headD tail ∈ ys ++ [tail] := by
  cases ys <;> simp

/-- Two positions in a list are the same element when nothing is between them. -/
theorem head_at_inj (list : IsList l null head tail (xs ++ range ++ ys)) :
    (range ++ ys).headD tail = ys.headD tail ↔ range = [] := by
  constructor
  · intro same
    cases range with
    | nil => rfl
    | cons first rest =>
        have distinct := list.distinct
        rw [List.append_assoc xs, List.append_assoc xs, ← List.cons_append, List.nodup_append]
          at distinct
        have apart := distinct.2.1
        rw [List.cons_append, List.cons_append, List.append_assoc, List.nodup_cons] at apart
        rw [List.cons_append, List.headD_cons] at same
        have inside : first ∈ ys ++ [tail] := same ▸ head_at_mem
        exact absurd (List.mem_append_right rest inside) apart.1
  · intro empty
    rw [empty, List.nil_append]

/-- Exchanged links and exchanged ends. -/
theorem is_list_reverse (list : IsList l null head tail elems) (isFirst : elems.head? = some first)
    (isLast : elems.getLast? = some last)
    (prev : ∀ x ∈ elems.dropLast, other.prev x = l.next x)
    (next : ∀ x ∈ elems.tail, other.next x = l.prev x) (begins : Linked other head last)
    (ends : Linked other first tail) (outerHead : other.prev head = null)
    (outerTail : other.next tail = null) : IsList other null head tail elems.reverse := by
  have same : (head :: (elems.reverse ++ [tail])).Perm (head :: (elems ++ [tail])) :=
    ((List.reverse_perm elems).append_right [tail]).cons head
  have chain := list.chain
  rw [← List.cons_append] at chain
  have inner := (List.isChain_cons.mp (List.isChain_append.mp chain).1).2
  exact {
    chain := chain_of_parts (List.isChain_singleton head) (chain_reverse inner prev next)
      (List.isChain_singleton tail) rfl (by rw [List.head?_reverse, isLast])
      (by rw [List.getLast?_reverse, isFirst]) rfl begins ends
    distinct := same.nodup_iff.mpr list.distinct
    nonnull := fun inside => list.nonnull (same.mem_iff.mp inside)
    first := outerHead
    last := outerTail }

variable [DecidableEq Elem]

theorem is_list_paste (list : IsList l null head tail (xs ++ ys))
    (inner : List.IsChain (Linked l) range) (isFirst : range.head? = some first)
    (isLast : range.getLast? = some last) (isBefore : (ys ++ [tail]).head? = some before)
    (once : range.Nodup) (nonnull : null ∉ range)
    (fresh : ∀ x ∈ range, x ∉ head :: (xs ++ ys ++ [tail])) :
    IsList (paste l before first last) null head tail (xs ++ range ++ ys) := by
  have inFirst : first ∈ range := List.mem_of_head? isFirst
  have inLast : last ∈ range := List.mem_of_getLast? isLast
  obtain ⟨right, late, isLate⟩ : ∃ right late, ys ++ [tail] = right :: late :=
    List.exists_cons_of_ne_nil (by simp)
  obtain ⟨early, left, isEarly⟩ : ∃ early left, head :: xs = early ++ [left] :=
    ⟨_, _, (List.dropLast_append_getLast (List.cons_ne_nil head xs)).symm⟩
  rw [isLate, List.head?_cons, Option.some_inj] at isBefore
  subst isBefore
  have whole : head :: (xs ++ ys ++ [tail]) = early ++ left :: right :: late := by
    rw [List.append_assoc, isLate, ← List.cons_append, isEarly]
    simp
  have grown : head :: (xs ++ range ++ ys ++ [tail]) =
      (early ++ [left]) ++ (range ++ right :: late) := by
    rw [List.append_assoc, isLate, List.append_assoc, ← List.cons_append, isEarly]
  have wider : (head :: (xs ++ range ++ ys ++ [tail])).Perm
      (range ++ head :: (xs ++ ys ++ [tail])) := by
    rw [List.append_assoc xs range, List.append_assoc xs, List.append_assoc range,
      List.append_assoc xs]
    exact (List.perm_append_comm_assoc (head :: xs) range (ys ++ [tail]))
  have distinct : (head :: (xs ++ range ++ ys ++ [tail])).Nodup := by
    rw [wider.nodup_iff, List.nodup_append]
    refine ⟨once, list.distinct, ?_⟩
    intro x inRange y inside same
    exact fresh x inRange (same ▸ inside)
  have linked : Linked l left right := by
    have chain := list.chain
    rw [whole] at chain
    exact (List.isChain_append_cons_cons.mp chain).2.1
  have parted : Parted early range late left right := by
    rw [grown] at distinct
    exact parts_apart distinct
  exact {
    chain := by
      have chain := list.chain
      rw [whole] at chain
      rw [grown] at distinct ⊢
      exact chain_paste chain inner isFirst isLast distinct
    distinct := distinct
    nonnull := by
      rw [wider.mem_iff, List.mem_append, not_or]
      exact ⟨nonnull, list.nonnull⟩
    first := by
      have headFirst : head ≠ first :=
        fun same => fresh first inFirst (same ▸ List.mem_cons_self)
      have headRight : head ≠ right :=
        aside (by rw [← isEarly]; exact List.mem_cons_self) parted.earlyRight
      simp only [paste]
      rw [Function.update_of_ne headRight, Function.update_of_ne headFirst]
      exact list.first
    last := by
      have inTail : tail ∈ right :: late := by
        rw [← isLate]
        simp
      have tailLast : tail ≠ last := fun same => fresh last inLast (same ▸ by simp)
      have tailLeft : tail ≠ left := aside inTail parted.lateLeft
      simp only [paste, linked.2]
      rw [Function.update_of_ne tailLeft, Function.update_of_ne tailLast]
      exact list.last }

theorem is_list_cut (list : IsList l null head tail (xs ++ range ++ ys))
    (isFirst : range.head? = some first) (isLast : range.getLast? = some last) :
    IsList (cut l first last) null head tail (xs ++ ys) ∧
      List.IsChain (Linked (cut l first last)) range := by
  have inFirst : first ∈ range := List.mem_of_head? isFirst
  have inLast : last ∈ range := List.mem_of_getLast? isLast
  obtain ⟨right, late, isLate⟩ : ∃ right late, ys ++ [tail] = right :: late :=
    List.exists_cons_of_ne_nil (by simp)
  obtain ⟨early, left, isEarly⟩ : ∃ early left, head :: xs = early ++ [left] :=
    ⟨_, _, (List.dropLast_append_getLast (List.cons_ne_nil head xs)).symm⟩
  have less : head :: (xs ++ ys ++ [tail]) = early ++ left :: right :: late := by
    rw [List.append_assoc, isLate, ← List.cons_append, isEarly]
    simp
  have whole : head :: (xs ++ range ++ ys ++ [tail]) =
      (early ++ [left]) ++ (range ++ right :: late) := by
    rw [List.append_assoc, isLate, List.append_assoc, ← List.cons_append, isEarly]
  have fewer : (head :: (xs ++ ys ++ [tail])).Sublist (head :: (xs ++ range ++ ys ++ [tail])) := by
    rw [List.append_assoc xs range]
    exact (((List.sublist_append_right range ys).append_left xs).append_right [tail]).cons_cons head
  have chain := list.chain
  have distinct := list.distinct
  rw [whole] at chain distinct
  have parted := parts_apart distinct
  obtain ⟨joined, inner⟩ := chain_cut chain isFirst isLast distinct
  obtain ⟨_, chainRest, entered⟩ := List.isChain_append.mp chain
  obtain ⟨_, _, left_⟩ := List.isChain_append.mp chainRest
  have back : l.prev first = left := by
    apply (entered left (by simp) first _).2
    rw [List.head?_append, isFirst]
    rfl
  have ahead : l.next last = right := (left_ last (by simp [isLast]) right (by simp)).1
  refine ⟨?_, inner⟩
  exact {
    chain := by
      rw [less]
      exact joined
    distinct := list.distinct.sublist fewer
    nonnull := fun inside => list.nonnull (fewer.subset inside)
    first := by
      have headRight : head ≠ right :=
        aside (by rw [← isEarly]; exact List.mem_cons_self) parted.earlyRight
      simp only [cut, ahead]
      rw [Function.update_of_ne headRight]
      exact list.first
    last := by
      have inTail : tail ∈ right :: late := by
        rw [← isLate]
        simp
      simp only [cut, back]
      rw [Function.update_of_ne (aside inTail parted.lateLeft)]
      exact list.last }

theorem is_list_push_front (list : IsList l null head tail elems) (nonnull : elem ≠ null)
    (fresh : elem ∉ head :: (elems ++ [tail])) :
    IsList (insertBefore l (l.next head) elem) null head tail (elem :: elems) := by
  have whole : IsList l null head tail ([] ++ elems) := list
  have isBefore : (elems ++ [tail]).head? = some (l.next head) := by
    rw [is_list_front list, List.head?_eq_some_head]
  exact is_list_paste whole (List.isChain_singleton elem) rfl rfl isBefore
    (List.nodup_singleton elem) (by simpa using nonnull.symm) (by simpa using fresh)

theorem is_list_push_back (list : IsList l null head tail elems) (nonnull : elem ≠ null)
    (fresh : elem ∉ head :: (elems ++ [tail])) :
    IsList (insertBefore l tail elem) null head tail (elems ++ [elem]) := by
  have whole : IsList l null head tail (elems ++ []) := by simpa using list
  have grown := is_list_paste whole (List.isChain_singleton elem) rfl rfl rfl
    (List.nodup_singleton elem) (by simpa using nonnull.symm) (by simpa using fresh)
  rw [List.append_nil] at grown
  exact grown

theorem is_list_remove (list : IsList l null head tail elems) (member : elem ∈ elems) :
    IsList (remove l elem) null head tail (elems.erase elem) := by
  obtain ⟨early, late, notEarly, split, erased⟩ := List.exists_erase_eq member
  have whole : IsList l null head tail (early ++ [elem] ++ late) := by
    rw [List.append_assoc, List.singleton_append, ← split]
    exact list
  rw [erased]
  exact (is_list_cut whole rfl rfl).1

end Lists

end UtSystems.Lib.LinkedList
