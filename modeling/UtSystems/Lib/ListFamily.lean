import UtSystems.Lib.LinkedList

/-!
# Several linked lists over the same links

A family of lists without common elements. A range is cut out of one list and pasted into one,
maybe the same; the other lists stay as they are.
-/

namespace UtSystems.Lib.ListFamily

open Lib.LinkedList

set_option autoImplicit false

structure Sentinels (Elem : Type*) where
  head : Elem
  tail : Elem

variable {Elem Index : Type*}

/-- A list with its sentinels. -/
def Sentinels.around (ends : Sentinels Elem) (elems : List Elem) : List Elem :=
  ends.head :: (elems ++ [ends.tail])

/-- The links hold each of the lists, and no two lists have an element in common. -/
structure Represents (null : Elem) (ends : Index → Sentinels Elem) (l : Links Elem)
    (lists : Index → List Elem) : Prop where
  isList : ∀ i, IsList l null (ends i).head (ends i).tail (lists i)
  apart : ∀ i j, i ≠ j → List.Disjoint ((ends i).around (lists i)) ((ends j).around (lists j))

/-- A range of elements that are in none of the lists. -/
structure Loose (null : Elem) (ends : Index → Sentinels Elem) (l : Links Elem)
    (lists : Index → List Elem) (range : List Elem) : Prop where
  chain : List.IsChain (Linked l) range
  once : range.Nodup
  nonnull : null ∉ range
  fresh : ∀ i, ∀ x ∈ range, x ∉ (ends i).around (lists i)

variable [DecidableEq Index] {null : Elem} {ends : Index → Sentinels Elem}
  {l : Links Elem} {lists : Index → List Elem} {i : Index} {xs ys range : List Elem}
  {before first last : Elem}

theorem around_update (list : List Elem) (j : Index) :
    (ends j).around (Function.update lists i list j) =
      if j = i then (ends i).around list else (ends j).around (lists j) := by
  by_cases same : j = i
  · subst same
    rw [Function.update_self, if_pos rfl]
  · rw [Function.update_of_ne same, if_neg same]

/-- Changes of links inside one list and a range outside of all lists. -/
theorem represents_update (whole : Represents null ends l lists) {next : Links Elem}
    {list : List Elem} (here : IsList next null (ends i).head (ends i).tail list)
    (kept : ∀ j, j ≠ i → ∀ x ∈ (ends j).around (lists j),
      next.prev x = l.prev x ∧ next.next x = l.next x)
    (apart : ∀ j, j ≠ i → List.Disjoint ((ends i).around list) ((ends j).around (lists j))) :
    Represents null ends next (Function.update lists i list) where
  isList := by
    intro j
    by_cases same : j = i
    · subst same
      rw [Function.update_self]
      exact here
    · rw [Function.update_of_ne same]
      exact is_list_congr (whole.isList j) (fun x inside => (kept j same x inside).1)
        (fun x inside => (kept j same x inside).2)
  apart := by
    intro j k different
    rw [around_update, around_update]
    by_cases isJ : j = i
    · have notK : k ≠ i := fun same => different (isJ.trans same.symm)
      rw [if_pos isJ, if_neg notK]
      exact apart k notK
    · rw [if_neg isJ]
      by_cases isK : k = i
      · rw [if_pos isK]
        exact List.disjoint_symm (apart j isJ)
      · rw [if_neg isK]
        exact whole.apart j k different

variable [DecidableEq Elem]

theorem represents_paste (whole : Represents null ends l lists) (split : lists i = xs ++ ys)
    (loose : Loose null ends l lists range) (isFirst : range.head? = some first)
    (isLast : range.getLast? = some last) (isBefore : (ys ++ [(ends i).tail]).head? = some before) :
    Represents null ends (paste l before first last)
      (Function.update lists i (xs ++ range ++ ys)) := by
  have list := whole.isList i
  have fresh := loose.fresh i
  rw [Sentinels.around, split] at fresh
  rw [split] at list
  have inFirst : first ∈ range := List.mem_of_head? isFirst
  have inLast : last ∈ range := List.mem_of_getLast? isLast
  have inBefore : before ∈ (ends i).around (lists i) := by
    rw [Sentinels.around, split, List.append_assoc, ← List.cons_append]
    exact List.mem_append_right _ (List.mem_of_head? isBefore)
  have inBack : l.prev before ∈ (ends i).around (lists i) := by
    have joined := is_list_join list (List.getLast?_eq_some_getLast (List.cons_ne_nil _ xs)) isBefore
    rw [joined.2, Sentinels.around, split, List.append_assoc, ← List.cons_append]
    exact List.mem_append_left _ (List.getLast_mem _)
  apply represents_update whole
    (is_list_paste list loose.chain isFirst isLast isBefore loose.once loose.nonnull fresh)
  · intro j other x inside
    have apart := whole.apart i j other.symm
    have notFirst : x ≠ first := fun same => loose.fresh j first inFirst (same ▸ inside)
    have notLast : x ≠ last := fun same => loose.fresh j last inLast (same ▸ inside)
    have notBefore : x ≠ before := fun same => apart inBefore (same ▸ inside)
    have notBack : x ≠ l.prev before := fun same => apart inBack (same ▸ inside)
    simp only [paste]
    rw [Function.update_of_ne notBefore, Function.update_of_ne notFirst,
      Function.update_of_ne notBack, Function.update_of_ne notLast]
    exact ⟨rfl, rfl⟩
  · intro j other x inside inOther
    have apart := whole.apart i j other.symm
    have outside : x ∉ range := fun inRange => loose.fresh j x inRange inOther
    apply @apart x _ inOther
    simp only [Sentinels.around, split, List.mem_cons, List.mem_append] at inside ⊢
    tauto

theorem represents_cut (whole : Represents null ends l lists) (split : lists i = xs ++ range ++ ys)
    (isFirst : range.head? = some first) (isLast : range.getLast? = some last) :
    Represents null ends (cut l first last) (Function.update lists i (xs ++ ys)) ∧
      Loose null ends (cut l first last) (Function.update lists i (xs ++ ys)) range := by
  have list := whole.isList i
  rw [split] at list
  obtain ⟨joined, inner⟩ := is_list_cut list isFirst isLast
  have inBack : l.prev first ∈ (ends i).around (lists i) := by
    rw [List.append_assoc] at list
    have entered := is_list_join list (List.getLast?_eq_some_getLast (List.cons_ne_nil _ xs))
      (by rw [List.append_assoc, List.head?_append, isFirst]; rfl)
    rw [entered.2, Sentinels.around, split, List.append_assoc, List.append_assoc,
      ← List.cons_append]
    exact List.mem_append_left _ (List.getLast_mem _)
  have inNext : l.next last ∈ (ends i).around (lists i) := by
    obtain ⟨right, late, isLate⟩ : ∃ right late, ys ++ [(ends i).tail] = right :: late :=
      List.exists_cons_of_ne_nil (by simp)
    have left := is_list_join list (by rw [← List.cons_append, List.getLast?_append, isLast]; rfl)
      (by rw [isLate]; exact List.head?_cons)
    rw [left.1, Sentinels.around, split, List.append_assoc, isLate]
    simp
  have fewer : ∀ x ∈ (ends i).around (xs ++ ys), x ∈ (ends i).around (lists i) := by
    intro x inside
    simp only [Sentinels.around, split, List.mem_cons, List.mem_append] at inside ⊢
    tauto
  constructor
  · apply represents_update whole joined
    · intro j other x inside
      have apart := whole.apart i j other.symm
      have notNext : x ≠ l.next last := fun same => apart inNext (same ▸ inside)
      have notBack : x ≠ l.prev first := fun same => apart inBack (same ▸ inside)
      simp only [cut]
      rw [Function.update_of_ne notNext, Function.update_of_ne notBack]
      exact ⟨rfl, rfl⟩
    · intro j other x inside
      exact whole.apart i j other.symm (fewer x inside)
  · have distinct := list.distinct
    have parts : (range ++ (ends i).around (xs ++ ys)).Nodup := by
      have moved : (range ++ (ends i).around (xs ++ ys)).Perm
          ((ends i).head :: (xs ++ range ++ ys ++ [(ends i).tail])) := by
        simp only [Sentinels.around, List.append_assoc]
        exact List.perm_append_comm_assoc range ((ends i).head :: xs) (ys ++ [(ends i).tail])
      rw [moved.nodup_iff]
      exact distinct
    obtain ⟨once, _, apart⟩ := List.nodup_append.mp parts
    have inRange : ∀ x ∈ range, x ∈ (ends i).around (lists i) := by
      intro x inside
      simp [Sentinels.around, split, inside]
    exact {
      chain := inner
      once := once
      nonnull := fun inside => (whole.isList i).nonnull (inRange null inside)
      fresh := by
        intro j x inside
        rw [around_update]
        split
        · intro present
          exact apart x inside x present rfl
        · next other => exact whole.apart i j (Ne.symm other) (inRange x inside) }

end UtSystems.Lib.ListFamily
