import UtSystems.Libc.Lists

/-!
# Inserting, removing and splicing

What the straight-line functions of lib/kernel/list.c do to the links, and to a family of lists
that the links hold.
-/

namespace UtSystems.Libc.ListOperations

open Lib.Effects Lib.LinkedList Lib.ListFamily Libc.Lists

set_option autoImplicit false

variable {Elem : Type} {null : Elem} {l : Links Elem} {elem before first last value : Elem}

section Steps

theorem get_run : (get : Kernel Elem (Links Elem)) l = .ok l l := rfl

theorem assert_run {holds : Bool} (true_ : holds = true) :
    (assert holds : Kernel Elem Unit) l = .ok () l := by
  rw [true_]
  rfl

variable [DecidableEq Elem]

theorem get_prev_run (nonnull : elem ≠ null) : getPrev null elem l = .ok (l.prev elem) l := by
  unfold getPrev
  rw [if_neg nonnull]
  rfl

theorem get_next_run (nonnull : elem ≠ null) : getNext null elem l = .ok (l.next elem) l := by
  unfold getNext
  rw [if_neg nonnull]
  rfl

theorem set_prev_run (nonnull : elem ≠ null) :
    setPrev null elem value l = .ok () { l with prev := Function.update l.prev elem value } := by
  unfold setPrev
  rw [if_neg nonnull]
  rfl

theorem set_next_run (nonnull : elem ≠ null) :
    setNext null elem value l = .ok () { l with next := Function.update l.next elem value } := by
  unfold setNext
  rw [if_neg nonnull]
  rfl

/-- An interior element or a tail. -/
structure Behind (null : Elem) (l : Links Elem) (elem : Elem) : Prop where
  self : elem ≠ null
  prev : l.prev elem ≠ null

theorem interior_or_tail (behind : Behind null l elem) :
    (isInterior null l elem || isTail null l elem) = true := by
  have self := behind.self
  have prev := behind.prev
  by_cases next : l.next elem = null <;> simp [isInterior, isTail, self, prev, next]

theorem interior_true (behind : Behind null l elem) (next : l.next elem ≠ null) :
    isInterior null l elem = true := by
  have self := behind.self
  have prev := behind.prev
  simp [isInterior, self, prev, next]

theorem list_prev_run (behind : Behind null l elem) : listPrev null elem l = .ok (l.prev elem) l := by
  unfold listPrev
  rw [bind_run get_run, bind_run (assert_run (interior_or_tail behind)), get_prev_run behind.self]

theorem list_insert_run (behind : Behind null l before) (nonnull : elem ≠ null)
    (apart : before ≠ elem) : listInsert null before elem l = .ok () (paste l before elem elem) := by
  unfold listInsert
  rw [bind_run get_run, bind_run (assert_run (interior_or_tail behind)),
    bind_run (assert_run (by simpa using nonnull)), bind_run (get_prev_run behind.self),
    bind_run (set_prev_run nonnull), bind_run (set_next_run nonnull),
    bind_run (get_prev_run behind.self)]
  dsimp only
  rw [Function.update_of_ne apart, bind_run (set_next_run behind.prev), set_prev_run behind.self]
  rfl

theorem list_remove_run (behind : Behind null l elem) (next : l.next elem ≠ null)
    (apart : l.prev elem ≠ elem) :
    listRemove null elem l = .ok (l.next elem) (cut l elem elem) := by
  unfold listRemove
  rw [bind_run get_run, bind_run (assert_run (interior_true behind next)),
    bind_run (get_prev_run behind.self), bind_run (get_next_run behind.self),
    bind_run (set_next_run behind.prev), bind_run (get_next_run behind.self)]
  dsimp only
  rw [Function.update_of_ne apart.symm, bind_run (get_prev_run behind.self),
    bind_run (set_prev_run next), get_next_run behind.self]
  dsimp only
  rw [Function.update_of_ne apart.symm]
  rfl

theorem list_splice_empty (behind : Behind null l before) :
    listSplice null before first first l = .ok () l := by
  unfold listSplice
  rw [bind_run get_run, bind_run (assert_run (interior_or_tail behind)), if_pos rfl]
  rfl

/-- The range from `first` to the element before `stop`, which is `last`. -/
theorem list_splice_run {stop : Elem} (behind : Behind null l before) (some_ : first ≠ stop)
    (stops : Behind null l stop) (isLast : l.prev stop = last) (isStop : l.next last = stop)
    (firstBehind : Behind null l first) (firstNext : l.next first ≠ null)
    (lastBehind : Behind null l last) (apart : l.prev first ≠ last)
    (outside : before ≠ first) (cutBehind : Behind null (cut l first last) before) :
    listSplice null before first stop l = .ok () (paste (cut l first last) before first last) := by
  have lastNext : l.next last ≠ null := by
    rw [isStop]
    exact stops.self
  unfold listSplice
  rw [bind_run get_run, bind_run (assert_run (interior_or_tail behind)), if_neg some_,
    bind_run (list_prev_run stops), bind_run get_run, isLast,
    bind_run (assert_run (interior_true firstBehind firstNext)),
    bind_run (assert_run (interior_true lastBehind lastNext)),
    bind_run (get_prev_run firstBehind.self), bind_run (get_next_run lastBehind.self),
    bind_run (set_next_run firstBehind.prev), bind_run (get_next_run lastBehind.self)]
  dsimp only
  rw [Function.update_of_ne apart.symm, bind_run (get_prev_run firstBehind.self),
    bind_run (set_prev_run lastNext)]
  have isCut : ({ prev := Function.update l.prev (l.next last) (l.prev first)
                  next := Function.update l.next (l.prev first) (l.next last) } : Links Elem) =
      cut l first last := rfl
  rw [isCut, bind_run (get_prev_run cutBehind.self), bind_run (set_prev_run firstBehind.self),
    bind_run (set_next_run lastBehind.self), bind_run (get_prev_run cutBehind.self)]
  dsimp only
  rw [Function.update_of_ne outside, bind_run (set_next_run cutBehind.prev),
    set_prev_run cutBehind.self]
  rfl

end Steps

section Positions

variable {head tail : Elem} {xs ys : List Elem}

theorem behind_at (list : IsList l null head tail (xs ++ ys)) : Behind null l (ys.headD tail) := by
  have linked := is_list_at list
  have nonnull := list.nonnull
  rw [List.append_assoc, ← List.cons_append, List.mem_append, not_or] at nonnull
  constructor
  · intro same
    exact nonnull.2 (same ▸ head_at_mem)
  · rw [linked.2]
    intro same
    exact nonnull.1 (same ▸ List.getLastD_mem_cons)

theorem behind_of_mem {elems : List Elem} (list : IsList l null head tail elems)
    (inside : elem ∈ elems ++ [tail]) : Behind null l elem := by
  rw [List.mem_append, List.mem_singleton] at inside
  cases inside with
  | inl interior =>
      obtain ⟨early, late, split⟩ := List.append_of_mem interior
      rw [split] at list
      exact behind_at list
  | inr isTail =>
      rw [← List.append_nil elems] at list
      rw [isTail]
      exact behind_at list

theorem next_at (list : IsList l null head tail (xs ++ elem :: ys)) :
    l.next elem = ys.headD tail ∧ l.next elem ≠ null := by
  rw [List.append_cons] at list
  have linked := is_list_at list
  rw [List.getLastD_concat] at linked
  exact ⟨linked.1, linked.1 ▸ (behind_at list).self⟩

theorem not_tail (list : IsList l null head tail (xs ++ elem :: ys)) : elem ≠ tail := by
  have whole : IsList l null head tail (xs ++ elem :: ys ++ []) := by
    rw [List.append_nil]
    exact list
  exact fun same => List.cons_ne_nil elem ys ((head_at_inj whole).mp same)

variable [DecidableEq Elem]

theorem list_next_run (list : IsList l null head tail (xs ++ elem :: ys)) :
    listNext null elem l = .ok (ys.headD tail) l := by
  obtain ⟨isNext, next⟩ := next_at list
  have behind : Behind null l elem := behind_at list
  unfold listNext
  rw [bind_run get_run, bind_run (assert_run (by simp [interior_true behind next])),
    get_next_run behind.self, isNext]

theorem list_prev_at (list : IsList l null head tail (xs ++ ys)) :
    listPrev null (ys.headD tail) l = .ok (xs.getLastD head) l := by
  rw [list_prev_run (behind_at list), (is_list_at list).2]

theorem list_begin_run {ends : Sentinels Elem}
    (list : IsList l null ends.head ends.tail xs) :
    listBegin null ends l = .ok (xs.headD ends.tail) l := by
  have nonnull : ends.head ≠ null := fun same => list.nonnull (same ▸ List.mem_cons_self)
  have whole : IsList l null ends.head ends.tail ([] ++ xs) := list
  unfold listBegin
  rw [bind_run (assert_run (by simpa using nonnull)), get_next_run nonnull]
  exact congrArg (EStateM.Result.ok · l) (is_list_at whole).1

theorem list_end_run {ends : Sentinels Elem} (list : IsList l null ends.head ends.tail xs) :
    listEnd null ends l = .ok ends.tail l := by
  have nonnull : ends.head ≠ null := fun same => list.nonnull (same ▸ List.mem_cons_self)
  unfold listEnd
  rw [bind_run (assert_run (by simpa using nonnull))]
  rfl

end Positions

section Families

variable {Index : Type} {ends : Index → Sentinels Elem}
  {lists : Index → List Elem} {i j : Index} {xs ys : List Elem}

/-- An element that is in no list. -/
def Free (null : Elem) (ends : Index → Sentinels Elem) (lists : Index → List Elem)
    (elem : Elem) : Prop :=
  elem ≠ null ∧ ∀ i, elem ∉ (ends i).around (lists i)

theorem split_at (whole : Represents null ends l lists) (split : lists i = xs ++ ys) :
    IsList l null (ends i).head (ends i).tail (xs ++ ys) :=
  split ▸ whole.isList i

theorem loose_free (free : Free null ends lists elem) : Loose null ends l lists [elem] where
  chain := List.isChain_singleton elem
  once := List.nodup_singleton elem
  nonnull := by simpa using free.1.symm
  fresh := by
    intro j x inside
    rw [List.mem_singleton.mp inside]
    exact free.2 j

variable [DecidableEq Elem] [DecidableEq Index]

theorem list_insert_spec (whole : Represents null ends l lists) (split : lists i = xs ++ ys)
    (free : Free null ends lists elem) :
    Returns (listInsert null (ys.headD (ends i).tail) elem) l fun _ next =>
      Represents null ends next (Function.update lists i (xs ++ elem :: ys)) := by
  have behind := behind_at (split_at whole split)
  have apart : ys.headD (ends i).tail ≠ elem := by
    intro same
    apply free.2 i
    rw [Sentinels.around, split, ← same, List.append_assoc]
    exact List.mem_cons_of_mem _ (List.mem_append_right xs head_at_mem)
  refine ⟨(), _, list_insert_run behind free.1 apart, ?_⟩
  rw [List.append_cons]
  exact represents_paste whole split (loose_free free) rfl rfl head_at

theorem list_remove_spec (whole : Represents null ends l lists)
    (split : lists i = xs ++ elem :: ys) :
    Returns (listRemove null elem) l fun value next => value = ys.headD (ends i).tail ∧
      Represents null ends next (Function.update lists i (xs ++ ys)) ∧
      Free null ends (Function.update lists i (xs ++ ys)) elem := by
  have list := split_at whole split
  obtain ⟨isNext, next⟩ := next_at list
  have behind : Behind null l elem := behind_at list
  have apart : l.prev elem ≠ elem := by
    have linked := is_list_at list
    have distinct := list.distinct
    rw [List.headD_cons] at linked
    rw [linked.2]
    intro same
    rw [List.append_assoc, ← List.cons_append, List.nodup_append] at distinct
    exact distinct.2.2 elem (same ▸ List.getLastD_mem_cons) elem (by simp) rfl
  have range : lists i = xs ++ [elem] ++ ys := by
    rw [split, List.append_cons]
  obtain ⟨left, loose⟩ := represents_cut whole range rfl rfl
  refine ⟨_, _, list_remove_run behind next apart, isNext, left, ?_, ?_⟩
  · exact behind.self
  · exact fun j => loose.fresh j elem List.mem_cons_self

/-- The range leaves one list, and enters one that is then maybe the same. -/
theorem list_splice_spec {range xs' ys' : List Elem} (whole : Represents null ends l lists)
    (source : lists j = xs ++ range ++ ys) (some_ : range ≠ [])
    (target : Function.update lists j (xs ++ ys) i = xs' ++ ys') :
    Returns (listSplice null (ys'.headD (ends i).tail) ((range ++ ys).headD (ends j).tail)
        (ys.headD (ends j).tail)) l fun _ next =>
      Represents null ends next
        (Function.update (Function.update lists j (xs ++ ys)) i (xs' ++ range ++ ys')) := by
  obtain ⟨first, more, isRange⟩ := List.exists_cons_of_ne_nil some_
  obtain ⟨fewer, last, isFewer⟩ : ∃ fewer last, range = fewer ++ [last] :=
    ⟨_, _, (List.dropLast_append_getLast some_).symm⟩
  have isFirst : range.head? = some first := by rw [isRange, List.head?_cons]
  have isLast : range.getLast? = some last := by rw [isFewer, List.getLast?_concat]
  have inFirst : first ∈ range := List.mem_of_head? isFirst
  have inLast : last ∈ range := List.mem_of_getLast? isLast
  obtain ⟨without, loose⟩ := represents_cut whole source isFirst isLast
  have begins : (range ++ ys).headD (ends j).tail = first := by rw [isRange]; rfl
  have list := split_at whole source
  have atFirst : IsList l null (ends j).head (ends j).tail (xs ++ first :: (more ++ ys)) := by
    rw [List.append_assoc, isRange] at list
    exact list
  have atLast : IsList l null (ends j).head (ends j).tail (xs ++ fewer ++ last :: ys) := by
    rw [isFewer, ← List.append_assoc, ← List.append_cons] at list
    exact list
  have atStop := is_list_at list
  rw [isFewer, ← List.append_assoc, List.getLastD_concat] at atStop
  have someRange : first ≠ ys.headD (ends j).tail := by
    rw [← begins, Ne, head_at_inj list]
    exact some_
  have apart : l.prev first ≠ last := by
    have distinct := atFirst.distinct
    have linked := is_list_at atFirst
    rw [List.headD_cons] at linked
    rw [linked.2]
    intro same
    rw [List.append_assoc, ← List.cons_append, List.nodup_append] at distinct
    refine distinct.2.2 last (same ▸ List.getLastD_mem_cons) last ?_ rfl
    rw [isRange] at inLast
    exact List.mem_append_left _ (List.mem_append_left ys inLast)
  have inTarget : ys'.headD (ends i).tail ∈ (ends i).around (Function.update lists j (xs ++ ys) i) := by
    rw [Sentinels.around, target, List.append_assoc]
    exact List.mem_cons_of_mem _ (List.mem_append_right xs' head_at_mem)
  have outside : ys'.headD (ends i).tail ≠ first :=
    fun same => loose.fresh i first inFirst (same ▸ inTarget)
  have cutBehind := behind_at (split_at without target)
  have behind : Behind null l (ys'.headD (ends i).tail) := by
    apply behind_of_mem (whole.isList i)
    have inside : ys'.headD (ends i).tail ∈ Function.update lists j (xs ++ ys) i ++ [(ends i).tail] := by
      rw [target, List.append_assoc]
      exact List.mem_append_right xs' head_at_mem
    by_cases same : i = j
    · subst same
      rw [Function.update_self] at inside
      rw [source]
      simp only [List.mem_append] at inside ⊢
      tauto
    · rwa [Function.update_of_ne same] at inside
  refine ⟨(), _, ?_, represents_paste without target loose isFirst isLast head_at⟩
  rw [begins]
  exact list_splice_run behind someRange (behind_at list) atStop.2 atStop.1 (behind_at atFirst)
    (next_at atFirst).2 (behind_at atLast) apart outside cutBehind

end Families

end UtSystems.Libc.ListOperations
