import Mathlib.Data.List.Destutter
import Mathlib.Data.List.Sort
import UtSystems.Lib.NaturalMerge
import UtSystems.Libc.ListOperations

/-!
# Kernel lists as sequences

Calls of lib/kernel/list.c on a family of lists, next to what they are on sequences. Every call
that keeps its preconditions returns, and the lists hold the sequences again.
-/

namespace UtSystems.Libc.ListSequences

open Lib.Effects Lib.LinkedList Lib.ListFamily Lib.NaturalMerge Libc.Lists Libc.ListOperations

set_option autoImplicit false

variable {Elem : Type} [DecidableEq Elem] {null : Elem} {l : Links Elem}

section Ends

variable {ends : Sentinels Elem} {xs ys : List Elem} {elem : Elem}

theorem list_empty_run (list : IsList l null ends.head ends.tail xs) :
    listEmpty null ends l = .ok (decide (xs = [])) l := by
  have whole : IsList l null ends.head ends.tail ([] ++ xs ++ []) := by
    rw [List.append_nil]
    exact list
  have inj := head_at_inj whole
  rw [List.append_nil, List.headD_nil] at inj
  unfold listEmpty
  rw [bind_run (list_begin_run list), bind_run (list_end_run list)]
  exact congrArg (EStateM.Result.ok · l) (decide_eq_decide.mpr inj)

theorem list_front_run (list : IsList l null ends.head ends.tail (elem :: xs)) :
    listFront null ends l = .ok elem l := by
  have nonnull : ends.head ≠ null := fun same => list.nonnull (same ▸ List.mem_cons_self)
  have whole : IsList l null ends.head ends.tail ([] ++ elem :: xs) := list
  unfold listFront
  rw [bind_run (list_empty_run list), bind_run (assert_run (by simp)), get_next_run nonnull]
  exact congrArg (EStateM.Result.ok · l) (is_list_at whole).1

theorem list_back_run (list : IsList l null ends.head ends.tail (xs ++ [elem])) :
    listBack null ends l = .ok elem l := by
  have whole : IsList l null ends.head ends.tail (xs ++ [elem] ++ []) := by
    rw [List.append_nil]
    exact list
  have tailBehind : Behind null l ends.tail := behind_at whole
  unfold listBack
  rw [bind_run (list_empty_run list), bind_run (assert_run (by simp)),
    get_prev_run tailBehind.self]
  have back := (is_list_at whole).2
  rw [List.getLastD_concat] at back
  exact congrArg (EStateM.Result.ok · l) back

end Ends

section Reversal

/-- The links of these elements exchanged. -/
def turned (l : Links Elem) (xs : List Elem) : Links Elem where
  prev := fun x => if x ∈ xs then l.next x else l.prev x
  next := fun x => if x ∈ xs then l.prev x else l.next x

variable {ends : Sentinels Elem} {xs ys : List Elem} {elem : Elem} {fuel : Nat}

theorem swap_links_run (nonnull : elem ≠ null) :
    swap null (.prev elem) (.next elem) l = .ok ()
      ⟨Function.update l.prev elem (l.next elem), Function.update l.next elem (l.prev elem)⟩ := by
  unfold swap load store
  rw [bind_run (get_prev_run nonnull), bind_run (get_next_run nonnull),
    bind_run (set_prev_run nonnull)]
  exact set_next_run nonnull

theorem turned_concat (fresh : elem ∉ xs) :
    (⟨Function.update (turned l xs).prev elem ((turned l xs).next elem),
      Function.update (turned l xs).next elem ((turned l xs).prev elem)⟩ : Links Elem) =
      turned l (xs ++ [elem]) := by
  simp only [turned, fresh, if_false, Links.mk.injEq]
  constructor
  · funext x
    by_cases same : x = elem
    · simp [same]
    · simp [same]
  · funext x
    by_cases same : x = elem
    · simp [same]
    · simp [same]

theorem turned_nil : turned l [] = l := by
  simp [turned]

theorem reverse_loop_run (list : IsList l null ends.head ends.tail (xs ++ ys))
    (enough : ys.length < fuel) :
    reverseLoop null ends fuel (ys.headD ends.tail) (turned l xs) =
      .ok () (turned l (xs ++ ys)) := by
  have nonnull : ends.head ≠ null := fun same => list.nonnull (same ▸ List.mem_cons_self)
  have ended : ∀ m, listEnd null ends m = .ok ends.tail m := by
    intro m
    unfold listEnd
    rw [bind_run (assert_run (by simpa using nonnull))]
    rfl
  induction ys generalizing xs fuel with
  | nil =>
      obtain ⟨turns, isFuel⟩ := Nat.exists_eq_succ_of_ne_zero (Nat.ne_zero_of_lt enough)
      rw [isFuel]
      unfold reverseLoop
      rw [bind_run (ended _), List.headD_nil, if_pos rfl, List.append_nil]
      rfl
  | cons e ys ih =>
      obtain ⟨turns, isFuel⟩ := Nat.exists_eq_succ_of_ne_zero (Nat.ne_zero_of_lt enough)
      rw [isFuel, List.length_cons] at enough
      have behind : Behind null l e := behind_at list
      have going : e ≠ ends.tail := by
        have whole : IsList l null ends.head ends.tail (xs ++ (e :: ys) ++ []) := by
          rw [List.append_nil]
          exact list
        exact fun same => List.cons_ne_nil e ys ((head_at_inj whole).mp same)
      have fresh : e ∉ xs := by
        have distinct := list.distinct
        rw [List.append_assoc, ← List.cons_append, List.nodup_append] at distinct
        exact fun inside => distinct.2.2 e (List.mem_cons_of_mem _ inside) e (by simp) rfl
      have ahead : (turned l (xs ++ [e])).prev e = ys.headD ends.tail := by
        simp only [turned, List.mem_append, List.mem_singleton, or_true, if_true]
        exact (next_at list).1
      rw [isFuel, List.headD_cons]
      unfold reverseLoop
      rw [bind_run (ended _), if_neg going, bind_run (swap_links_run behind.self),
        turned_concat fresh, bind_run (get_prev_run behind.self), ahead]
      have moved := ih (by rw [← List.append_cons]; exact list) (by omega : ys.length < turns)
      rw [← List.append_cons] at moved
      exact moved

variable {first last : Elem}

/-- What the links of the ends were before the reversal. -/
structure Ends (null : Elem) (l : Links Elem) (ends : Sentinels Elem) (xs : List Elem)
    (first last : Elem) : Prop where
  begins : Linked l ends.head first
  finishes : Linked l last ends.tail
  headOut : ends.head ∉ xs
  tailOut : ends.tail ∉ xs
  inFirst : first ∈ xs
  inLast : last ∈ xs
  nonnull : ∀ x ∈ ends.around xs, x ≠ null

omit [DecidableEq Elem] in
theorem list_ends (list : IsList l null ends.head ends.tail xs) (isFirst : xs.head? = some first)
    (isLast : xs.getLast? = some last) : Ends null l ends xs first last where
  begins := by
    have whole : IsList l null ends.head ends.tail ([] ++ xs) := list
    have linked := is_list_at whole
    rw [List.headD_eq_head?_getD, isFirst] at linked
    exact linked
  finishes := by
    have whole : IsList l null ends.head ends.tail (xs ++ []) := by
      rw [List.append_nil]
      exact list
    have linked := is_list_at whole
    rw [List.getLastD_eq_getLast?, isLast] at linked
    exact linked
  headOut := fun inside =>
    (List.nodup_cons.mp list.distinct).1 (List.mem_append_left _ inside)
  tailOut := by
    intro inside
    have apart := (List.nodup_append.mp (List.nodup_cons.mp list.distinct).2).2.2
    exact apart ends.tail inside ends.tail List.mem_cons_self rfl
  inFirst := List.mem_of_head? isFirst
  inLast := List.mem_of_getLast? isLast
  nonnull := fun x inside same => list.nonnull (same ▸ inside)

/-- The two last exchanges, of the ends. -/
theorem swap_ends_run (facts : Ends null l ends xs first last) :
    (do
      swap null (.next ends.head) (.prev ends.tail)
      swap null (.prev (← getNext null ends.head)) (.next (← getPrev null ends.tail)) :
        Kernel Elem Unit) (turned l xs) =
      .ok () ⟨Function.update (Function.update (turned l xs).prev ends.tail first) last ends.head,
        Function.update (Function.update (turned l xs).next ends.head last) first ends.tail⟩ := by
  have headNonnull := facts.nonnull ends.head List.mem_cons_self
  have tailNonnull := facts.nonnull ends.tail (by simp [Sentinels.around])
  have firstNonnull := facts.nonnull first (by simp [Sentinels.around, facts.inFirst])
  have lastNonnull := facts.nonnull last (by simp [Sentinels.around, facts.inLast])
  have headNext : (turned l xs).next ends.head = first := by
    simp [turned, facts.headOut, facts.begins.1]
  have tailPrev : (turned l xs).prev ends.tail = last := by
    simp [turned, facts.tailOut, facts.finishes.2]
  have lastPrev : (turned l xs).prev last = ends.tail := by
    simp [turned, facts.inLast, facts.finishes.1]
  have firstNext : (turned l xs).next first = ends.head := by
    simp [turned, facts.inFirst, facts.begins.2]
  have lastTail : last ≠ ends.tail := fun same => facts.tailOut (same ▸ facts.inLast)
  have firstHead : first ≠ ends.head := fun same => facts.headOut (same ▸ facts.inFirst)
  have outer : swap null (.next ends.head) (.prev ends.tail) (turned l xs) = .ok ()
      ⟨Function.update (turned l xs).prev ends.tail first,
        Function.update (turned l xs).next ends.head last⟩ := by
    unfold swap load store
    rw [bind_run (get_next_run headNonnull), bind_run (get_prev_run tailNonnull), headNext,
      tailPrev, bind_run (set_next_run headNonnull)]
    exact set_prev_run tailNonnull
  rw [bind_run outer, bind_run (get_next_run headNonnull), bind_run (get_prev_run tailNonnull)]
  dsimp only
  rw [Function.update_self, Function.update_self]
  unfold swap load store
  rw [bind_run (get_prev_run lastNonnull), bind_run (get_next_run firstNonnull)]
  dsimp only
  rw [Function.update_of_ne lastTail, Function.update_of_ne firstHead, lastPrev, firstNext,
    bind_run (set_prev_run lastNonnull)]
  exact set_next_run firstNonnull

variable {Index : Type} [DecidableEq Index] {family : Index → Sentinels Elem}
  {lists : Index → List Elem} {i : Index}

/-- The reversed list in the links with exchanged ends. -/
theorem is_list_turned (list : IsList l null ends.head ends.tail xs)
    (isFirst : xs.head? = some first) (isLast : xs.getLast? = some last) :
    IsList ⟨Function.update (Function.update (turned l xs).prev ends.tail first) last ends.head,
        Function.update (Function.update (turned l xs).next ends.head last) first ends.tail⟩
      null ends.head ends.tail xs.reverse := by
  have facts := list_ends list isFirst isLast
  have once : xs.Nodup := (List.nodup_append.mp (List.nodup_cons.mp list.distinct).2).1
  have lastTail : last ≠ ends.tail := fun same => facts.tailOut (same ▸ facts.inLast)
  have firstHead : first ≠ ends.head := fun same => facts.headOut (same ▸ facts.inFirst)
  have lastHead : ends.head ≠ last := fun same => facts.headOut (same ▸ facts.inLast)
  have firstTail : ends.tail ≠ first := fun same => facts.tailOut (same ▸ facts.inFirst)
  have headTail : ends.head ≠ ends.tail :=
    fun same => (List.nodup_cons.mp list.distinct).1 (same ▸ by simp)
  apply is_list_reverse list isFirst isLast
  · intro x inside
    have member := List.dropLast_subset _ inside
    have notTail : x ≠ ends.tail := fun same => facts.tailOut (same ▸ member)
    dsimp only
    rw [Function.update_of_ne (drop_last_ne once isLast inside), Function.update_of_ne notTail]
    exact if_pos member
  · intro x inside
    have member := List.mem_of_mem_tail inside
    have notHead : x ≠ ends.head := fun same => facts.headOut (same ▸ member)
    dsimp only
    rw [Function.update_of_ne (tail_ne once isFirst inside), Function.update_of_ne notHead]
    exact if_pos member
  · simp [Linked, firstHead.symm]
  · simp [Linked, lastTail.symm]
  · dsimp only
    rw [Function.update_of_ne lastHead, Function.update_of_ne headTail]
    simp [turned, facts.headOut, list.first]
  · dsimp only
    rw [Function.update_of_ne firstTail, Function.update_of_ne headTail.symm]
    simp [turned, facts.tailOut, list.last]

theorem list_reverse_spec (whole : Represents null family l lists)
    (enough : (lists i).length < fuel) :
    Returns (listReverse null fuel (family i)) l fun _ next =>
      Represents null family next (Function.update lists i (lists i).reverse) := by
  have list := whole.isList i
  unfold listReverse
  refine returns_after (list_empty_run list) ?_
  by_cases empty : lists i = []
  · rw [if_pos (by simpa using empty)]
    refine returns_pure ?_
    have same : (lists i).reverse = lists i := by rw [empty, List.reverse_nil]
    rw [same, Function.update_eq_self]
    exact whole
  · obtain ⟨first, isFirst⟩ : ∃ first, (lists i).head? = some first :=
      ⟨_, List.head?_eq_some_head empty⟩
    obtain ⟨last, isLast⟩ : ∃ last, (lists i).getLast? = some last :=
      ⟨_, List.getLast?_eq_some_getLast empty⟩
    have facts := list_ends list isFirst isLast
    have start : IsList l null (family i).head (family i).tail ([] ++ lists i) := list
    have looped := reverse_loop_run start enough
    rw [turned_nil, List.nil_append] at looped
    have turnedList := is_list_turned list isFirst isLast
    rw [if_neg (by simpa using empty)]
    refine returns_after (list_begin_run list) ?_
    refine returns_after looped ?_
    refine ⟨(), _, swap_ends_run facts, represents_update whole turnedList ?_ ?_⟩
    · intro j other x inside
      have apart := whole.apart i j other.symm
      have out : ∀ y ∈ (family i).around (lists i), x ≠ y :=
        fun y member same => apart member (same ▸ inside)
      have notHead := out (family i).head List.mem_cons_self
      have notTail := out (family i).tail (by simp [Sentinels.around])
      have notFirst := out first (by simp [Sentinels.around, facts.inFirst])
      have notLast := out last (by simp [Sentinels.around, facts.inLast])
      have outside : x ∉ lists i := fun member => out x (by simp [Sentinels.around, member]) rfl
      dsimp only
      rw [Function.update_of_ne notLast, Function.update_of_ne notTail,
        Function.update_of_ne notFirst, Function.update_of_ne notHead]
      simp [turned, outside]
    · intro j other x inside
      apply whole.apart i j other.symm
      simpa [Sentinels.around] using inside

end Reversal

section Families

variable {Index : Type} [DecidableEq Index] {ends : Index → Sentinels Elem}
  {lists : Index → List Elem} {i : Index} {xs : List Elem} {elem : Elem}

theorem list_push_front_spec (whole : Represents null ends l lists)
    (free : Free null ends lists elem) :
    Returns (listPushFront null (ends i) elem) l fun _ next =>
      Represents null ends next (Function.update lists i (elem :: lists i)) := by
  have split : lists i = [] ++ lists i := rfl
  exact returns_after (list_begin_run (whole.isList i)) (list_insert_spec whole split free)

theorem list_push_back_spec (whole : Represents null ends l lists)
    (free : Free null ends lists elem) :
    Returns (listPushBack null (ends i) elem) l fun _ next =>
      Represents null ends next (Function.update lists i (lists i ++ [elem])) := by
  have split : lists i = lists i ++ [] := (List.append_nil _).symm
  exact returns_after (list_end_run (whole.isList i)) (list_insert_spec whole split free)

theorem list_pop_front_spec (whole : Represents null ends l lists) (split : lists i = elem :: xs) :
    Returns (listPopFront null (ends i)) l fun value next => value = elem ∧
      Represents null ends next (Function.update lists i xs) := by
  have front : lists i = [] ++ elem :: xs := split
  refine returns_after (list_front_run (split ▸ whole.isList i)) ?_
  refine returns_bind (list_remove_spec whole front) ?_
  intro _ next removed
  exact returns_pure ⟨rfl, removed.2.1⟩

theorem list_pop_back_spec (whole : Represents null ends l lists) (split : lists i = xs ++ [elem]) :
    Returns (listPopBack null (ends i)) l fun value next => value = elem ∧
      Represents null ends next (Function.update lists i xs) := by
  refine returns_after (list_back_run (split ▸ whole.isList i)) ?_
  refine returns_bind (list_remove_spec whole split) ?_
  intro _ next removed
  have held := removed.2.1
  rw [List.append_nil] at held
  exact returns_pure ⟨rfl, held⟩

end Families

section Ordered

variable {less : Elem → Elem → Bool} {ends : Sentinels Elem} {xs ys rest : List Elem}
  {elem m : Elem} {fuel : Nat}

theorem insertion_point_run (list : IsList l null ends.head ends.tail (xs ++ ys))
    (enough : ys.length < fuel) :
    insertionPoint null less ends elem fuel (ys.headD ends.tail) l =
      .ok ((ys.dropWhile fun e => !less elem e).headD ends.tail) l := by
  induction fuel generalizing xs ys with
  | zero => exact absurd enough (Nat.not_lt_zero _)
  | succ fuel ih =>
      unfold insertionPoint
      cases ys with
      | nil =>
          rw [bind_run (list_end_run list), List.headD_nil, if_pos rfl]
          rfl
      | cons e ys =>
          rw [bind_run (list_end_run list), List.headD_cons, if_neg (not_tail list)]
          by_cases stop : less elem e = true
          · rw [if_pos stop, List.dropWhile_cons_of_neg (by simp [stop])]
            rfl
          · have moved : IsList l null ends.head ends.tail (xs ++ [e] ++ ys) := by
              rw [← List.append_cons]
              exact list
            rw [List.length_cons] at enough
            rw [if_neg stop, bind_run (list_next_run list),
              List.dropWhile_cons_of_pos (by simpa using stop)]
            exact ih moved (by omega)

/-- `m` comes first among the greatest elements. -/
def Earliest (less : Elem → Elem → Bool) (xs : List Elem) (m : Elem) : Prop :=
  ∃ early late, xs = early ++ m :: late ∧ (∀ x ∈ early, less x m = true) ∧
    ∀ x ∈ late, less m x = false

omit [DecidableEq Elem] in
theorem earliest_step [order : IsStrictWeakOrder Elem fun a b => less a b = true] {e : Elem}
    (first : Earliest less xs m) : Earliest less (xs ++ [e]) (if less m e then e else m) := by
  obtain ⟨early, late, split, below, notAbove⟩ := first
  cases up : less m e with
  | true =>
      refine ⟨xs, [], rfl, ?_, fun x inside => absurd inside List.not_mem_nil⟩
      intro x inside
      rw [split, List.mem_append, List.mem_cons] at inside
      change less x e = true
      rcases inside with before | isM | after
      · exact order.trans x m e (below x before) up
      · rw [isM]
        exact up
      · cases down : less x e with
        | true => rfl
        | false =>
            rw [not_less_trans down (notAbove x after)] at up
            cases up
  | false =>
      refine ⟨early, late ++ [e], by rw [split]; simp, below, ?_⟩
      intro x inside
      rw [List.mem_append, List.mem_singleton] at inside
      cases inside with
      | inl before => exact notAbove x before
      | inr isE =>
          rw [isE]
          exact up

theorem max_loop_run [IsStrictWeakOrder Elem fun a b => less a b = true]
    (list : IsList l null ends.head ends.tail (xs ++ ys)) (first : Earliest less xs m)
    (enough : ys.length < fuel) :
    ∃ max, maxLoop null less ends fuel m (ys.headD ends.tail) l = .ok max l ∧
      Earliest less (xs ++ ys) max := by
  induction fuel generalizing xs ys m with
  | zero => exact absurd enough (Nat.not_lt_zero _)
  | succ fuel ih =>
      unfold maxLoop
      cases ys with
      | nil =>
          rw [bind_run (list_end_run list), List.headD_nil, if_pos rfl, List.append_nil]
          exact ⟨m, rfl, first⟩
      | cons e ys =>
          have moved : IsList l null ends.head ends.tail (xs ++ [e] ++ ys) := by
            rw [← List.append_cons]
            exact list
          rw [List.length_cons] at enough
          rw [bind_run (list_end_run list), List.headD_cons, if_neg (not_tail list),
            bind_run (list_next_run list), List.append_cons]
          exact ih moved (earliest_step first) (by omega)

theorem list_max_run [IsStrictWeakOrder Elem fun a b => less a b = true]
    (list : IsList l null ends.head ends.tail xs) (enough : xs.length ≤ fuel) :
    ∃ max, listMax null less fuel ends l = .ok max l ∧
      (xs = [] ∧ max = ends.tail ∨ Earliest less xs max) := by
  unfold listMax
  rw [bind_run (list_begin_run list), bind_run (list_end_run list)]
  cases xs with
  | nil =>
      rw [List.headD_nil, if_pos rfl]
      exact ⟨ends.tail, rfl, .inl ⟨rfl, rfl⟩⟩
  | cons a rest =>
      have start : IsList l null ends.head ends.tail ([] ++ a :: rest) := list
      have single : Earliest less [a] a := ⟨[], [], rfl, by simp, by simp⟩
      rw [List.length_cons] at enough
      obtain ⟨max, ran, earliest⟩ := max_loop_run list single (by omega : rest.length < fuel)
      rw [List.headD_cons, if_neg (not_tail start), bind_run (list_next_run start)]
      exact ⟨max, ran, .inr earliest⟩

/-- The least element is the greatest one of the order upside down. -/
theorem list_min_eq : listMin null less fuel ends = listMax null (fun a b => less b a) fuel ends := by
  have loops : ∀ fuel min e,
      minLoop null less ends fuel min e = maxLoop null (fun a b => less b a) ends fuel min e := by
    intro fuel
    induction fuel with
    | zero => exact fun _ _ => rfl
    | succ fuel ih =>
        intro min e
        unfold minLoop maxLoop
        simp only [ih]
  unfold listMin listMax
  simp only [loops]

end Ordered

section Unique

def unequal (less : Elem → Elem → Bool) (a b : Elem) : Prop := equivalent less a b = false

instance (less : Elem → Elem → Bool) : DecidableRel (unequal less) :=
  fun a b => inferInstanceAs (Decidable (equivalent less a b = false))

/-- The elements that are equal to the one kept before them. -/
def repeated (less : Elem → Elem → Bool) (a : Elem) : List Elem → List Elem
  | [] => []
  | b :: rest =>
      if equivalent less a b then b :: repeated less a rest else repeated less b rest

variable {Index : Type} [DecidableEq Index] {ends : Index → Sentinels Elem}
  {lists : Index → List Elem} {i : Index} {done rest : List Elem} {elem : Elem}
  {less : Elem → Elem → Bool} {duplicates : Option Index} {fuel : Nat}

/-- List `i` becomes `kept`, and what was removed goes behind the duplicates, if anywhere. -/
def sortedOut (lists : Index → List Elem) (i : Index) (duplicates : Option Index)
    (kept removed : List Elem) : Index → List Elem :=
  match duplicates with
  | none => Function.update lists i kept
  | some j => Function.update (Function.update lists i kept) j (lists j ++ removed)

omit [DecidableEq Elem] in
theorem sorted_out_nil (other : duplicates ≠ some i) (split : lists i = done) :
    sortedOut lists i duplicates done [] = lists := by
  rw [← split]
  cases duplicates with
  | none => exact Function.update_eq_self i lists
  | some j => simp only [sortedOut, List.append_nil, Function.update_eq_self]

theorem unique_loop_spec (whole : Represents null ends l lists)
    (split : lists i = done ++ elem :: rest) (other : duplicates ≠ some i)
    (enough : rest.length < fuel) :
    Returns (uniqueLoop null less (ends i) (duplicates.map ends) fuel elem) l fun _ next =>
      Represents null ends next (sortedOut lists i duplicates
        (done ++ List.destutter' (unequal less) elem rest) (repeated less elem rest)) := by
  induction fuel generalizing l lists done elem rest with
  | zero => exact absurd enough (Nat.not_lt_zero _)
  | succ fuel ih =>
      unfold uniqueLoop
      refine returns_after (list_next_run (split_at whole split)) ?_
      refine returns_after (list_end_run (whole.isList i)) ?_
      cases rest with
      | nil =>
          rw [List.headD_nil, if_pos rfl]
          refine returns_pure ?_
          have unchanged := sorted_out_nil other split
          simpa only [List.destutter'_nil, repeated, unchanged] using whole
      | cons b rest =>
          have moved : lists i = done ++ [elem] ++ b :: rest := by
            rw [split, List.append_cons]
          rw [List.length_cons] at enough
          rw [List.headD_cons, if_neg (not_tail (split_at whole moved))]
          by_cases same : equivalent less elem b = true
          · have kept : ¬unequal less elem b := by simp [unequal, same]
            rw [List.destutter'_cons_neg _ kept, repeated, if_pos same]
            refine Eq.mpr (congrArg (Returns · l _) (if_pos same)) ?_
            refine returns_bind (list_remove_spec whole moved) ?_
            intro _ next removed
            obtain ⟨_, held, free⟩ := removed
            have now : Function.update lists i (done ++ [elem] ++ rest) i =
                done ++ elem :: rest := by
              rw [Function.update_self, ← List.append_cons]
            cases duplicates with
            | none =>
                refine returns_mono (ih held now (by omega)) ?_
                intro _ last sorted
                simpa only [sortedOut, Function.update_idem] using sorted
            | some j =>
                have apart : j ≠ i := fun isI => other (congrArg some isI)
                refine returns_bind (list_push_back_spec (i := j) held free) ?_
                intro _ last pushed
                rw [Function.update_of_ne apart] at pushed
                have unchanged : Function.update (Function.update lists i (done ++ [elem] ++ rest)) j
                    (lists j ++ [b]) i = done ++ elem :: rest := by
                  rw [Function.update_of_ne apart.symm, now]
                refine returns_mono (ih pushed unchanged (by omega)) ?_
                intro _ final sorted
                simp only [sortedOut, Function.update_self] at sorted ⊢
                rw [Function.update_comm apart.symm, Function.update_idem,
                  Function.update_comm apart, Function.update_idem, List.append_assoc] at sorted
                exact sorted
          · have kept : unequal less elem b := by simpa [unequal] using same
            rw [List.destutter'_cons_pos _ kept, repeated, if_neg same, List.append_cons]
            refine Eq.mpr (congrArg (Returns · l _) (if_neg same)) ?_
            exact ih whole moved (by omega)

/-- `list_unique` on sequences. -/
def uniqueSequences (less : Elem → Elem → Bool) (lists : Index → List Elem) (i : Index)
    (duplicates : Option Index) : Index → List Elem :=
  match lists i with
  | [] => lists
  | elem :: rest => sortedOut lists i duplicates
      (List.destutter' (unequal less) elem rest) (repeated less elem rest)

theorem list_unique_spec (whole : Represents null ends l lists) (other : duplicates ≠ some i)
    (enough : (lists i).length < fuel) :
    Returns (listUnique null less fuel (ends i) (duplicates.map ends)) l fun _ next =>
      Represents null ends next (uniqueSequences less lists i duplicates) := by
  have list := whole.isList i
  have nonnull : (ends i).head ≠ null := fun same => list.nonnull (same ▸ List.mem_cons_self)
  unfold listUnique uniqueSequences
  refine returns_after (assert_run (by simpa using nonnull)) ?_
  refine returns_after (list_empty_run list) ?_
  cases split : lists i with
  | nil => exact returns_pure whole
  | cons elem rest =>
      rw [split, List.length_cons] at enough
      have start : lists i = [] ++ elem :: rest := split
      rw [if_neg (by simp)]
      refine returns_after (list_begin_run list) ?_
      rw [split, List.headD_cons]
      exact unique_loop_spec whole start other (by omega)

theorem list_insert_ordered_spec (whole : Represents null ends l lists)
    (free : Free null ends lists elem) (enough : (lists i).length < fuel) :
    Returns (listInsertOrdered null less fuel (ends i) elem) l fun _ next =>
      Represents null ends next (Function.update lists i
        ((lists i).orderedInsert (fun a b => less a b = true) elem)) := by
  have list := whole.isList i
  have nonnull : (ends i).head ≠ null := fun same => list.nonnull (same ▸ List.mem_cons_self)
  have start : IsList l null (ends i).head (ends i).tail ([] ++ lists i) := list
  have split : lists i = (lists i).takeWhile (fun e => !less elem e) ++
      (lists i).dropWhile fun e => !less elem e := List.takeWhile_append_dropWhile.symm
  unfold listInsertOrdered
  refine returns_after (assert_run (by simpa using nonnull)) ?_
  refine returns_after (assert_run (by simpa using free.1)) ?_
  refine returns_after (list_begin_run list) ?_
  refine returns_after (insertion_point_run start enough) ?_
  have inserted := list_insert_spec whole split free
  rw [List.orderedInsert_eq_take_drop]
  simpa using inserted

end Unique

section Calls

variable {Index : Type} [DecidableEq Index]

inductive Call (Elem Index : Type) where
  | insert (before elem : Elem)
  | pushFront (list : Index) (elem : Elem)
  | pushBack (list : Index) (elem : Elem)
  | remove (elem : Elem)
  | popFront (list : Index)
  | popBack (list : Index)
  | splice (before first last : Elem)
  | reverse (list : Index)
  | insertOrdered (list : Index) (elem : Elem) (less : Elem → Elem → Bool)
  | unique (list : Index) (duplicates : Option Index) (less : Elem → Elem → Bool)

/-- The call on the links; some calls return an element. -/
def Call.perform (null : Elem) (ends : Index → Sentinels Elem) (fuel : Nat) :
    Call Elem Index → Kernel Elem (Option Elem)
  | .insert before elem => do listInsert null before elem; return none
  | .pushFront list elem => do listPushFront null (ends list) elem; return none
  | .pushBack list elem => do listPushBack null (ends list) elem; return none
  | .remove elem => do return some (← listRemove null elem)
  | .popFront list => do return some (← listPopFront null (ends list))
  | .popBack list => do return some (← listPopBack null (ends list))
  | .splice before first last => do listSplice null before first last; return none
  | .reverse list => do listReverse null fuel (ends list); return none
  | .insertOrdered list elem less => do
      listInsertOrdered null less fuel (ends list) elem
      return none
  | .unique list duplicates less => do
      listUnique null less fuel (ends list) (duplicates.map ends)
      return none

variable {ends : Index → Sentinels Elem} {lists after : Index → List Elem}

/-- A call within its preconditions on the sequences: what it returns and what it makes of them.
An element stands for its place in its sequence, a tail for the place behind all elements. -/
inductive Means (null : Elem) (ends : Index → Sentinels Elem) (lists : Index → List Elem) :
    Call Elem Index → Option Elem → (Index → List Elem) → Prop where
  | insert {i : Index} {xs ys : List Elem} {elem : Elem} (split : lists i = xs ++ ys)
      (free : Free null ends lists elem) :
      Means null ends lists (.insert (ys.headD (ends i).tail) elem) none
        (Function.update lists i (xs ++ elem :: ys))
  | pushFront {i : Index} {elem : Elem} (free : Free null ends lists elem) :
      Means null ends lists (.pushFront i elem) none (Function.update lists i (elem :: lists i))
  | pushBack {i : Index} {elem : Elem} (free : Free null ends lists elem) :
      Means null ends lists (.pushBack i elem) none (Function.update lists i (lists i ++ [elem]))
  | remove {i : Index} {xs ys : List Elem} {elem : Elem} (split : lists i = xs ++ elem :: ys) :
      Means null ends lists (.remove elem) (some (ys.headD (ends i).tail))
        (Function.update lists i (xs ++ ys))
  | popFront {i : Index} {xs : List Elem} {elem : Elem} (split : lists i = elem :: xs) :
      Means null ends lists (.popFront i) (some elem) (Function.update lists i xs)
  | popBack {i : Index} {xs : List Elem} {elem : Elem} (split : lists i = xs ++ [elem]) :
      Means null ends lists (.popBack i) (some elem) (Function.update lists i xs)
  | splice {i j : Index} {xs range ys early late : List Elem}
      (source : lists j = xs ++ range ++ ys)
      (target : Function.update lists j (xs ++ ys) i = early ++ late) :
      Means null ends lists
        (.splice (late.headD (ends i).tail) ((range ++ ys).headD (ends j).tail)
          (ys.headD (ends j).tail)) none
        (Function.update (Function.update lists j (xs ++ ys)) i (early ++ range ++ late))
  | reverse {i : Index} :
      Means null ends lists (.reverse i) none (Function.update lists i (lists i).reverse)
  | insertOrdered {i : Index} {elem : Elem} {less : Elem → Elem → Bool}
      (free : Free null ends lists elem) :
      Means null ends lists (.insertOrdered i elem less) none (Function.update lists i
        ((lists i).orderedInsert (fun a b => less a b = true) elem))
  | unique {i : Index} {duplicates : Option Index} {less : Elem → Elem → Bool}
      (other : duplicates ≠ some i) :
      Means null ends lists (.unique i duplicates less) none
        (uniqueSequences less lists i duplicates)

omit [DecidableEq Elem] in
theorem returns_none {program : Kernel Elem Unit} {post : Links Elem → Prop}
    (ran : Returns program l fun _ next => post next) :
    Returns (do program; return none : Kernel Elem (Option Elem)) l fun found next =>
      found = none ∧ post next :=
  returns_bind ran fun _ _ holds => returns_pure ⟨rfl, holds⟩

omit [DecidableEq Elem] in
theorem returns_some {program : Kernel Elem Elem} {value : Elem} {post : Links Elem → Prop}
    (ran : Returns program l fun found next => found = value ∧ post next) :
    Returns (do return some (← program) : Kernel Elem (Option Elem)) l fun found next =>
      found = some value ∧ post next :=
  returns_bind ran fun _ _ holds => returns_pure ⟨congrArg some holds.1, holds.2⟩

/-- One call on the links is what it means on the sequences. -/
theorem call_spec {call : Call Elem Index} {value : Option Elem}
    (means : Means null ends lists call value after) :
    ∃ turns, ∀ fuel, turns ≤ fuel → ∀ l, Represents null ends l lists →
      Returns (call.perform null ends fuel) l fun found next =>
        found = value ∧ Represents null ends next after := by
  cases means with
  | insert split free => exact ⟨0, fun _ _ l whole => returns_none (list_insert_spec whole split free)⟩
  | pushFront free => exact ⟨0, fun _ _ l whole => returns_none (list_push_front_spec whole free)⟩
  | pushBack free => exact ⟨0, fun _ _ l whole => returns_none (list_push_back_spec whole free)⟩
  | remove split =>
      refine ⟨0, fun _ _ l whole => returns_some (returns_mono (list_remove_spec whole split) ?_)⟩
      exact fun _ _ removed => ⟨removed.1, removed.2.1⟩
  | popFront split => exact ⟨0, fun _ _ l whole => returns_some (list_pop_front_spec whole split)⟩
  | popBack split => exact ⟨0, fun _ _ l whole => returns_some (list_pop_back_spec whole split)⟩
  | @splice i j xs range ys early late source target =>
      refine ⟨0, fun _ _ l whole => returns_none ?_⟩
      by_cases empty : range = []
      · subst empty
        rw [List.append_nil] at source
        have behind : Behind null l (late.headD (ends i).tail) := by
          rw [← source, Function.update_eq_self] at target
          exact behind_at (split_at whole target)
        refine ⟨(), l, list_splice_empty behind, ?_⟩
        rw [List.append_nil, ← target, Function.update_eq_self, ← source,
          Function.update_eq_self]
        exact whole
      · exact list_splice_spec whole source empty target
  | @reverse i =>
      exact ⟨(lists i).length + 1, fun _ enough l whole =>
        returns_none (list_reverse_spec whole enough)⟩
  | @insertOrdered i elem less free =>
      exact ⟨(lists i).length + 1, fun _ enough l whole =>
        returns_none (list_insert_ordered_spec whole free enough)⟩
  | @unique i duplicates less other =>
      exact ⟨(lists i).length + 1, fun _ enough l whole =>
        returns_none (list_unique_spec whole other enough)⟩

/-- Calls one after another. -/
def performAll (null : Elem) (ends : Index → Sentinels Elem) (fuel : Nat) :
    List (Call Elem Index) → Kernel Elem (List (Option Elem))
  | [] => return []
  | call :: rest => do
      let value ← call.perform null ends fuel
      return value :: (← performAll null ends fuel rest)

inductive MeansAll (null : Elem) (ends : Index → Sentinels Elem) :
    (Index → List Elem) → List (Call Elem Index) → List (Option Elem) →
      (Index → List Elem) → Prop where
  | nil {lists : Index → List Elem} : MeansAll null ends lists [] [] lists
  | cons {lists between after : Index → List Elem} {call : Call Elem Index}
      {rest : List (Call Elem Index)} {value : Option Elem} {values : List (Option Elem)}
      (first : Means null ends lists call value between)
      (later : MeansAll null ends between rest values after) :
      MeansAll null ends lists (call :: rest) (value :: values) after

theorem calls_spec {calls : List (Call Elem Index)} {values : List (Option Elem)}
    (means : MeansAll null ends lists calls values after) :
    ∃ turns, ∀ fuel, turns ≤ fuel → ∀ l, Represents null ends l lists →
      Returns (performAll null ends fuel calls) l fun found next =>
        found = values ∧ Represents null ends next after := by
  induction means with
  | nil => exact ⟨0, fun _ _ _ whole => returns_pure ⟨rfl, whole⟩⟩
  | cons first later ih =>
      obtain ⟨turns, performed⟩ := call_spec first
      obtain ⟨others, rest⟩ := ih
      refine ⟨max turns others, fun fuel enough l whole => ?_⟩
      refine returns_bind (performed fuel (by omega) l whole) ?_
      intro value next done
      refine returns_bind (rest fuel (by omega) next done.2) ?_
      intro values last finished
      exact returns_pure ⟨by rw [done.1, finished.1], finished.2⟩

end Calls

section Claims

variable {Index : Type} [DecidableEq Index] {ends : Index → Sentinels Elem}
  {lists after : Index → List Elem}

/-- Calls on the links are the operations on the sequences, and `list_max` and `list_min` return
the first of the extremal elements. -/
theorem lists_refine_sequences (whole : Represents null ends l lists) :
    (∀ calls values after, MeansAll null ends lists calls values after →
      ∃ turns, ∀ fuel, turns ≤ fuel → Returns (performAll null ends fuel calls) l
        fun found next => found = values ∧ Represents null ends next after) ∧
      ∀ i (less : Elem → Elem → Bool), (IsStrictWeakOrder Elem fun a b => less a b = true) →
        ∀ fuel, (lists i).length ≤ fuel →
          (∃ max, listMax null less fuel (ends i) l = .ok max l ∧
            (lists i = [] ∧ max = (ends i).tail ∨ Earliest less (lists i) max)) ∧
          ∃ min, listMin null less fuel (ends i) l = .ok min l ∧
            (lists i = [] ∧ min = (ends i).tail ∨
              Earliest (fun a b => less b a) (lists i) min) := by
  constructor
  · intro calls values after means
    obtain ⟨turns, performed⟩ := calls_spec means
    exact ⟨turns, fun fuel enough => performed fuel enough l whole⟩
  · intro i less order fuel enough
    have upside : IsStrictWeakOrder Elem fun a b => less b a = true :=
      inferInstanceAs (IsStrictWeakOrder Elem (Function.swap fun a b => less a b = true))
    rw [list_min_eq]
    exact ⟨list_max_run (whole.isList i) enough, list_max_run (whole.isList i) enough⟩

/-- Two empty lists. -/
def emptyEnds (list : Bool) : Sentinels Nat := if list then ⟨1, 2⟩ else ⟨3, 4⟩

def emptyLinks : Links Nat where
  prev := fun elem => match elem with
    | 2 => 1 | 4 => 3 | _ => 0
  next := fun elem => match elem with
    | 1 => 2 | 3 => 4 | _ => 0

theorem empty_lists : Represents 0 emptyEnds emptyLinks fun _ => [] where
  isList := by
    intro list
    cases list with
    | true => exact ⟨by simp [Linked, emptyEnds, emptyLinks], by decide, by decide, rfl, rfl⟩
    | false => exact ⟨by simp [Linked, emptyEnds, emptyLinks], by decide, by decide, rfl, rfl⟩
  apart := by
    intro one other different
    cases one <;> cases other <;> first
      | exact absurd rfl different
      | simp [Sentinels.around, emptyEnds]

/-- An element is put into one list and spliced into the other. -/
theorem lists_refine_sequences_two :
    ∃ turns, ∀ fuel, turns ≤ fuel →
      Returns (performAll 0 emptyEnds fuel [.pushBack true 5, .splice 4 5 2]) emptyLinks
        fun found next => found = [none, none] ∧ Represents 0 emptyEnds next
          (Function.update (Function.update (Function.update (fun _ => []) true [5]) true [])
            false [5]) :=
  (lists_refine_sequences empty_lists).1 [.pushBack true 5, .splice 4 5 2] [none, none] _
    (.cons (.pushBack ⟨by decide, by decide⟩)
      (.cons (@Means.splice Nat Bool _ 0 emptyEnds _ false true [] [5] [] [] [] rfl rfl) .nil))

end Claims

end UtSystems.Libc.ListSequences
