import UtSystems.Lib.NaturalMerge
import UtSystems.Libc.ListOperations

/-!
# Sorting a kernel list

`list_sort` makes passes over the list until one run is left. The positions that the loops keep
are elements, so that each loop is described by how they split the sequence.
-/

namespace UtSystems.Libc.ListSort

open Lib.Effects Lib.LinkedList Lib.ListFamily Lib.NaturalMerge Libc.Lists Libc.ListOperations

set_option autoImplicit false

variable {Elem : Type} [DecidableEq Elem] {null : Elem} {l : Links Elem}
  {less : Elem → Elem → Bool}

section Scans

variable {head tail a : Elem} {xs ys run rest : List Elem} {fuel : Nat}

theorem is_sorted_loop_run (list : IsList l null head tail (xs ++ a :: (run ++ ys)))
    (sorted : Ascending less (a :: run)) (enough : run.length < fuel) :
    isSortedLoop null less (ys.headD tail) fuel a l = .ok true l := by
  induction run generalizing xs a fuel with
  | nil =>
      obtain ⟨rest, isFuel⟩ := Nat.exists_eq_succ_of_ne_zero (Nat.ne_of_gt enough)
      rw [isFuel]
      unfold isSortedLoop
      rw [bind_run (list_next_run list), List.nil_append, if_pos rfl]
      rfl
  | cons c run ih =>
      obtain ⟨rest, isFuel⟩ := Nat.exists_eq_succ_of_ne_zero (Nat.ne_zero_of_lt enough)
      rw [isFuel, List.length_cons] at enough
      obtain ⟨ordered, later⟩ := List.isChain_cons_cons.mp sorted
      have moved : IsList l null head tail (xs ++ [a] ++ c :: (run ++ ys)) := by
        rw [← List.append_cons]
        exact list
      have back := list_prev_at moved
      rw [List.getLastD_concat, List.headD_cons] at back
      have going : c ≠ ys.headD tail := by
        have whole : IsList l null head tail (xs ++ [a] ++ (c :: run) ++ ys) := by
          rw [List.append_assoc _ (c :: run)]
          exact moved
        exact fun same => List.cons_ne_nil c run ((head_at_inj whole).mp same)
      rw [isFuel]
      unfold isSortedLoop
      rw [bind_run (list_next_run list), List.cons_append, List.headD_cons, if_neg going,
        bind_run back, ordered]
      exact ih moved later (by omega)

theorem is_sorted_run (list : IsList l null head tail (xs ++ run ++ ys))
    (sorted : Ascending less run) (enough : run.length ≤ fuel) :
    isSorted null less fuel ((run ++ ys).headD tail) (ys.headD tail) l = .ok true l := by
  unfold isSorted
  cases run with
  | nil => exact congrArg (fun program : Kernel Elem Bool => program l) (if_pos rfl)
  | cons a run =>
      have going : ¬(a :: run ++ ys).headD tail = ys.headD tail :=
        fun same => List.cons_ne_nil a run ((head_at_inj list).mp same)
      rw [if_neg going]
      rw [List.append_assoc] at list
      exact is_sorted_loop_run list sorted enough

variable (less) in
theorem end_of_run_loop_run (list : IsList l null head tail (xs ++ a :: ys))
    (enough : ys.length < fuel) :
    ∃ run rest, ys = run ++ rest ∧ FirstRun less (a :: run) rest ∧
      endOfRunLoop null less tail fuel a l = .ok (rest.headD tail) l := by
  induction ys generalizing xs a fuel with
  | nil =>
      obtain ⟨turns, isFuel⟩ := Nat.exists_eq_succ_of_ne_zero (Nat.ne_zero_of_lt enough)
      refine ⟨[], [], rfl, ⟨.singleton a, List.cons_ne_nil a [], fun some_ => absurd rfl some_⟩, ?_⟩
      rw [isFuel]
      unfold endOfRunLoop
      rw [bind_run (list_next_run list), List.headD_nil, if_pos rfl]
      rfl
  | cons c ys ih =>
      obtain ⟨turns, isFuel⟩ := Nat.exists_eq_succ_of_ne_zero (Nat.ne_zero_of_lt enough)
      rw [isFuel, List.length_cons] at enough
      have moved : IsList l null head tail (xs ++ [a] ++ c :: ys) := by
        rw [← List.append_cons]
        exact list
      have back := list_prev_at moved
      rw [List.getLastD_concat, List.headD_cons] at back
      have turn : endOfRunLoop null less tail (turns + 1) a l =
          (if less c a = true then (return c : Kernel Elem Elem)
            else endOfRunLoop null less tail turns c) l := by
        conv_lhs => unfold endOfRunLoop
        rw [bind_run (list_next_run list), List.headD_cons, if_neg (not_tail moved), bind_run back]
      rw [isFuel, turn]
      cases ordered : less c a with
      | true =>
          refine ⟨[], c :: ys, rfl, ⟨.singleton a, List.cons_ne_nil a [], ?_⟩, rfl⟩
          intro _
          simp only [List.cons_append, List.nil_append, descents, ordered, if_true]
          omega
      | false =>
          obtain ⟨run, rest, split, first, ends⟩ := ih moved (by omega : ys.length < turns)
          refine ⟨c :: run, rest, by rw [split]; rfl, ?_, ends⟩
          refine ⟨List.isChain_cons_cons.mpr ⟨ordered, first.sorted⟩, List.cons_ne_nil a _, ?_⟩
          intro some_
          have counted := first.ends some_
          simp only [List.cons_append, descents, ordered] at counted ⊢
          simpa using counted

variable (less) in
theorem find_end_of_run_run (list : IsList l null head tail (xs ++ a :: ys))
    (enough : ys.length < fuel) :
    ∃ run rest, ys = run ++ rest ∧ FirstRun less (a :: run) rest ∧
      findEndOfRun null less fuel a tail l = .ok (rest.headD tail) l := by
  obtain ⟨run, rest, split, first, ran⟩ := end_of_run_loop_run less list enough
  have whole : IsList l null head tail (xs ++ a :: ys ++ []) := by
    rw [List.append_nil]
    exact list
  have behind : Behind null l a := behind_at list
  have tailBehind : Behind null l tail := behind_at whole
  refine ⟨run, rest, split, first, ?_⟩
  unfold findEndOfRun
  rw [bind_run (assert_run (by simpa using behind.self)),
    bind_run (assert_run (by simpa using tailBehind.self)),
    bind_run (assert_run (by simpa using not_tail list)), ran]

end Scans

section Merging

variable {Index : Type} [DecidableEq Index] {ends : Index → Sentinels Elem}
  {lists : Index → List Elem} {i : Index} {early first second late : List Elem} {fuel : Nat}

section Turns

variable {a b b1 : Elem}

theorem merge_loop_done (done : a = b ∨ b = b1) :
    mergeLoop null less b1 (fuel + 1) a b = return () := by
  unfold mergeLoop
  exact if_pos done

theorem merge_loop_keeps (going : ¬(a = b ∨ b = b1)) (ordered : less b a = false) :
    mergeLoop null less b1 (fuel + 1) a b =
      listNext null a >>= fun a0 => mergeLoop null less b1 fuel a0 b := by
  conv_lhs => unfold mergeLoop
  rw [if_neg going, if_pos (by simp [ordered])]

theorem merge_loop_moves (going : ¬(a = b ∨ b = b1)) (below : less b a = true) :
    mergeLoop null less b1 (fuel + 1) a b = (do
      let a1b0 ← listNext null b
      listSplice null a (← listPrev null a1b0) a1b0
      mergeLoop null less b1 fuel a a1b0) := by
  conv_lhs => unfold mergeLoop
  rw [if_neg going, if_neg (by simp [below])]

end Turns

/-- The loop moves the lesser of the two first elements behind what is merged already. -/
theorem merge_loop_spec (whole : Represents null ends l lists)
    (split : lists i = early ++ first ++ second ++ late)
    (enough : first.length + second.length < fuel) :
    Returns (mergeLoop null less (late.headD (ends i).tail) fuel
        ((first ++ second ++ late).headD (ends i).tail) ((second ++ late).headD (ends i).tail))
      l fun _ next => Represents null ends next
        (Function.update lists i (early ++ first.merge second (notAfter less) ++ late)) := by
  induction fuel generalizing l lists early first second with
  | zero => exact absurd enough (Nat.not_lt_zero _)
  | succ fuel ih =>
      cases first with
      | nil =>
          rw [List.nil_append, merge_loop_done (.inl rfl), List.nil_merge]
          refine returns_pure ?_
          rw [List.append_nil] at split
          rw [← split, Function.update_eq_self]
          exact whole
      | cons a first =>
          cases second with
          | nil =>
              rw [List.append_nil, List.nil_append, merge_loop_done (.inr rfl), List.merge_right]
              refine returns_pure ?_
              rw [List.append_nil] at split
              rw [← split, Function.update_eq_self]
              exact whole
          | cons b second =>
              have atFirst : IsList l null (ends i).head (ends i).tail
                  (early ++ a :: (first ++ b :: second ++ late)) := by
                have list := split_at whole split
                simpa only [List.append_assoc, List.cons_append] using list
              have atSecond : IsList l null (ends i).head (ends i).tail
                  (early ++ a :: first ++ b :: (second ++ late)) := by
                have list := split_at whole split
                simpa only [List.append_assoc, List.cons_append] using list
              have going : ¬(a = b ∨ b = late.headD (ends i).tail) := by
                intro met
                cases met with
                | inl same =>
                    have between : IsList l null (ends i).head (ends i).tail
                        (early ++ (a :: first) ++ b :: (second ++ late)) := atSecond
                    exact List.cons_ne_nil a first ((head_at_inj between).mp same)
                | inr same =>
                    have between : IsList l null (ends i).head (ends i).tail
                        (early ++ a :: first ++ (b :: second) ++ late) := by
                      rw [List.append_assoc _ (b :: second)]
                      exact atSecond
                    exact List.cons_ne_nil b second ((head_at_inj between).mp same)
              change Returns (mergeLoop null less (late.headD (ends i).tail) (fuel + 1) a b) l _
              cases below : less b a with
              | false =>
                  have ordered : notAfter less a b = true := by simp [notAfter, below]
                  have moved : lists i = early ++ [a] ++ first ++ b :: second ++ late := by
                    rw [split, List.append_cons early]
                  rw [merge_loop_keeps going below, List.cons_merge_cons_pos _ _ _ ordered,
                    List.append_cons early]
                  refine returns_after (list_next_run atFirst) ?_
                  rw [List.append_assoc]
                  have turn := ih whole moved (by simp only [List.length_cons] at enough ⊢; omega)
                  simpa only [List.append_assoc, List.cons_append, List.headD_cons] using turn
              | true =>
                  have swapped : ¬notAfter less a b = true := by simp [notAfter, below]
                  have back : listPrev null ((second ++ late).headD (ends i).tail) l = .ok b l := by
                    rw [List.append_cons] at atSecond
                    rw [list_prev_at atSecond, List.getLastD_concat]
                  have source : lists i = early ++ a :: first ++ [b] ++ (second ++ late) := by
                    simp only [split, List.append_assoc, List.cons_append, List.nil_append]
                  have target : Function.update lists i (early ++ a :: first ++ (second ++ late)) i =
                      early ++ (a :: (first ++ (second ++ late))) := by
                    simp only [Function.update_self, List.append_assoc, List.cons_append]
                  rw [merge_loop_moves going below, List.cons_merge_cons_neg _ _ _ swapped]
                  refine returns_after (list_next_run atSecond) ?_
                  refine returns_after back ?_
                  refine returns_bind (list_splice_spec whole source (List.cons_ne_nil b []) target) ?_
                  intro _ next spliced
                  rw [Function.update_idem] at spliced
                  have moved : Function.update lists i
                      (early ++ [b] ++ a :: (first ++ (second ++ late))) i =
                      early ++ [b] ++ (a :: first) ++ second ++ late := by
                    simp only [Function.update_self, List.append_assoc, List.cons_append]
                  have turn := ih spliced moved (by simp only [List.length_cons] at enough ⊢; omega)
                  rw [Function.update_idem] at turn
                  simpa only [List.append_assoc, List.cons_append, List.headD_cons,
                    List.nil_append] using turn

theorem inplace_merge_spec (whole : Represents null ends l lists)
    (split : lists i = early ++ first ++ second ++ late) (sorted : Ascending less first)
    (sortedNext : Ascending less second) (enough : first.length + second.length < fuel) :
    Returns (inplaceMerge null less fuel ((first ++ second ++ late).headD (ends i).tail)
        ((second ++ late).headD (ends i).tail) (late.headD (ends i).tail)) l fun _ next =>
      Represents null ends next
        (Function.update lists i (early ++ first.merge second (notAfter less) ++ late)) := by
  have list := split_at whole split
  have atFirst : IsList l null (ends i).head (ends i).tail
      (early ++ first ++ (second ++ late)) := by
    rw [List.append_assoc _ second] at list
    exact list
  have atStart : IsList l null (ends i).head (ends i).tail
      (early ++ (first ++ second ++ late)) := by
    simpa only [List.append_assoc] using list
  have nonnull : ∀ {position : List Elem} {before : List Elem},
      IsList l null (ends i).head (ends i).tail (before ++ position) →
      decide (position.headD (ends i).tail ≠ null) = true := by
    intro position before at_
    simpa using (behind_at at_).self
  unfold inplaceMerge
  refine returns_after (assert_run (nonnull atStart)) ?_
  refine returns_after (assert_run (nonnull atFirst)) ?_
  refine returns_after (assert_run (nonnull list)) ?_
  have firstSorted : isSorted null less fuel ((first ++ second ++ late).headD (ends i).tail)
      ((second ++ late).headD (ends i).tail) l = .ok true l := by
    rw [List.append_assoc first]
    exact is_sorted_run atFirst sorted (by omega)
  refine returns_after firstSorted ?_
  refine returns_after (assert_run rfl) ?_
  refine returns_after (is_sorted_run list sortedNext (by omega)) ?_
  refine returns_after (assert_run rfl) ?_
  exact merge_loop_spec whole split enough

end Merging

section Passes

variable {Index : Type} [DecidableEq Index] {ends : Index → Sentinels Elem}
  {lists : Index → List Elem} {i : Index} {early rest : List Elem} {fuel steps count : Nat}
  [IsStrictWeakOrder Elem fun a b => less a b = true]

theorem pass_loop_spec (whole : Represents null ends l lists) (split : lists i = early ++ rest)
    (enough : rest.length < fuel) (turns : rest.length < steps) :
    Returns (passLoop null less steps (ends i) fuel count (rest.headD (ends i).tail)) l
      fun total next => ∃ done runs, total = count + runs ∧ Passed less rest done runs ∧
        Represents null ends next (Function.update lists i (early ++ done)) := by
  induction fuel generalizing l lists early rest count with
  | zero => exact absurd enough (Nat.not_lt_zero _)
  | succ fuel ih =>
      have ended : ∀ {m : Links Elem} {now : Index → List Elem}, Represents null ends m now →
          listEnd null (ends i) m = .ok (ends i).tail m := fun now => list_end_run (now.isList i)
      unfold passLoop
      refine returns_after (ended whole) ?_
      cases rest with
      | nil =>
          rw [List.headD_nil, if_pos rfl]
          refine returns_pure ⟨[], 0, rfl, passed_nil, ?_⟩
          rw [← split, Function.update_eq_self]
          exact whole
      | cons a ys =>
          have list := split_at whole split
          rw [List.length_cons] at enough turns
          obtain ⟨run, others, splitRun, firstRun, found⟩ :=
            find_end_of_run_run less list (by omega : ys.length < steps)
          rw [List.headD_cons, if_neg (not_tail list)]
          refine returns_after (ended whole) ?_
          refine returns_after found ?_
          refine returns_after (ended whole) ?_
          cases others with
          | nil =>
              rw [List.append_nil] at splitRun
              subst splitRun
              rw [List.headD_nil, if_pos rfl]
              refine returns_pure ⟨a :: ys, 1, rfl, passed_last firstRun, ?_⟩
              rw [← split, Function.update_eq_self]
              exact whole
          | cons c zs =>
              subst splitRun
              have splitNext : lists i = early ++ a :: run ++ c :: zs := by
                rw [split, List.append_assoc, List.cons_append]
              have lengths : (run ++ c :: zs).length = run.length + (zs.length + 1) := by
                rw [List.length_append, List.length_cons]
              rw [List.headD_cons, if_neg (not_tail (split_at whole splitNext))]
              refine returns_after (ended whole) ?_
              obtain ⟨other, rest, splitOther, second, foundNext⟩ :=
                find_end_of_run_run less (split_at whole splitNext) (by omega : zs.length < steps)
              refine returns_after foundNext ?_
              subst splitOther
              have splitBoth : lists i = early ++ (a :: run) ++ (c :: other) ++ rest := by
                rw [splitNext, List.append_assoc _ (c :: other), List.cons_append]
              have parts : (other ++ rest).length = other.length + rest.length := List.length_append
              refine returns_bind (inplace_merge_spec whole splitBoth firstRun.sorted second.sorted
                (by simp only [List.length_cons]; omega)) ?_
              intro _ next merged
              refine returns_mono (ih merged (Function.update_self ..) (by omega) (by omega)) ?_
              intro total last later
              obtain ⟨done, runs, isTotal, passed, held⟩ := later
              refine ⟨(a :: run).merge (c :: other) (notAfter less) ++ done, runs + 1, by omega, ?_, ?_⟩
              · have joined := passed_merge firstRun second passed
                simpa only [List.append_assoc, List.cons_append] using joined
              · rw [Function.update_idem, List.append_assoc] at held
                exact held

theorem sort_loop_spec (whole : Represents null ends l lists)
    (enough : descents less (lists i) < fuel) (turns : (lists i).length < steps) :
    Returns (sortLoop null less steps (ends i) fuel) l fun _ next => ∃ done,
      Rearranged less (lists i) done ∧ Ascending less done ∧
        Represents null ends next (Function.update lists i done) := by
  induction fuel generalizing l lists with
  | zero => exact absurd enough (Nat.not_lt_zero _)
  | succ fuel ih =>
      unfold sortLoop
      refine returns_after (list_begin_run (whole.isList i)) ?_
      have start : lists i = [] ++ lists i := rfl
      refine returns_bind (pass_loop_spec whole start turns turns) ?_
      intro total next passed
      obtain ⟨done, runs, isTotal, passed, held⟩ := passed
      rw [Nat.zero_add] at isTotal
      rw [List.nil_append] at held
      subst isTotal
      have isDone : Function.update lists i done i = done := Function.update_self ..
      by_cases more : 1 < total
      · -- a pass that puts out more than one run leaves fewer descents
        have some_ : done ≠ [] := by
          intro empty
          have nothing := passed.rearranged.perm
          rw [empty] at nothing
          have none_ := passed.none_ nothing.eq_nil
          omega
        have fewer := passed.sorted some_
        have few := passed.few
        rw [if_pos more]
        have lengths := passed.rearranged.perm.length_eq
        refine returns_mono (ih held (by rw [isDone]; omega) (by rw [isDone]; omega)) ?_
        intro _ last sorted
        obtain ⟨final, rearranged, ascending, kept⟩ := sorted
        rw [isDone] at rearranged
        rw [Function.update_idem] at kept
        exact ⟨final, rearranged_trans passed.rearranged rearranged, ascending, kept⟩
      · rw [if_neg more]
        refine returns_pure ⟨done, passed.rearranged, ?_, held⟩
        cases done with
        | nil => exact .nil
        | cons a rest =>
            have fewer := passed.sorted (List.cons_ne_nil a rest)
            exact ascending_of_descents (by omega)

theorem list_sort_spec (whole : Represents null ends l lists)
    (enough : (lists i).length < steps) :
    Returns (listSort null less steps (ends i)) l fun _ next => ∃ sorted,
      Rearranged less (lists i) sorted ∧ Ascending less sorted ∧
        Represents null ends next (Function.update lists i sorted) := by
  have nonnull : (ends i).head ≠ null :=
    fun same => (whole.isList i).nonnull (same ▸ List.mem_cons_self)
  have few : descents less (lists i) < steps := by
    cases isLists : lists i with
    | nil =>
        rw [isLists] at enough
        exact enough
    | cons a rest =>
        rw [isLists, List.length_cons] at enough
        have bound := @descents_lt_length _ less rest a
        omega
  unfold listSort
  refine returns_after (assert_run (by simpa using nonnull)) ?_
  refine returns_bind (sort_loop_spec whole few enough) ?_
  intro _ next sorted
  obtain ⟨sorted, rearranged, ascending, held⟩ := sorted
  have list := held.isList i
  rw [Function.update_self] at list
  refine returns_after (list_begin_run list) ?_
  refine returns_after (list_end_run list) ?_
  have checked : isSorted null less steps (sorted.headD (ends i).tail) (ends i).tail next =
      .ok true next := by
    have parts : IsList next null (ends i).head (ends i).tail ([] ++ sorted ++ []) := by
      rw [List.nil_append, List.append_nil]
      exact list
    have lengths := rearranged.perm.length_eq
    have ran := is_sorted_run parts ascending (by omega : sorted.length ≤ steps)
    rw [List.append_nil] at ran
    exact ran
  refine returns_after checked ?_
  exact ⟨(), next, assert_run rfl, sorted, rearranged, ascending, held⟩

end Passes

/-- The sort ends without a failed assertion, and the list is the same elements in order, those
that are equivalent as they were before. -/
theorem list_sort_sorts [IsStrictWeakOrder Elem fun a b => less a b = true]
    {ends : Sentinels Elem} {elems : List Elem} (list : IsList l null ends.head ends.tail elems)
    {steps : Nat} (enough : elems.length < steps) :
    Returns (listSort null less steps ends) l fun _ next => ∃ sorted,
      IsList next null ends.head ends.tail sorted ∧ sorted.Perm elems ∧
        sorted.Pairwise (fun a b => less b a = false) ∧
        ∀ a, sorted.filter (equivalent less a) = elems.filter (equivalent less a) := by
  have whole : Represents null (fun _ : Unit => ends) l fun _ => elems :=
    ⟨fun _ => list, fun _ _ different => absurd rfl different⟩
  refine returns_mono (list_sort_spec (i := ()) whole enough) ?_
  intro _ next ran
  obtain ⟨sorted, rearranged, ascending, held⟩ := ran
  have now := held.isList ()
  rw [Function.update_self] at now
  have ordered := ascending_iff.mp ascending
  simp only [notAfter, Bool.not_eq_true'] at ordered
  exact ⟨sorted, now, rearranged.perm.symm, ordered, fun a => (rearranged.stable a).symm⟩

/-- Three elements, ordered by their tens. -/
def threeLinks : Links Nat where
  prev := fun elem => match elem with
    | 2 => 25 | 25 => 21 | 21 => 30 | 30 => 1 | _ => 0
  next := fun elem => match elem with
    | 1 => 30 | 30 => 21 | 21 => 25 | 25 => 2 | _ => 0

theorem three_is_list : IsList threeLinks 0 1 2 [30, 21, 25] where
  chain := by simp [Linked, threeLinks]
  distinct := by decide
  nonnull := by decide
  first := rfl
  last := rfl

theorem tens_ordered :
    IsStrictWeakOrder Nat fun a b => decide (a / 10 < b / 10) = true where
  irrefl a := by simp
  trans a b c first second := by
    rw [decide_eq_true_eq] at first second ⊢
    omega
  incomp_trans a b c first second := by
    simp only [decide_eq_true_eq] at first second ⊢
    omega

theorem list_sort_sorts_three :
    Returns (listSort 0 (fun a b => decide (a / 10 < b / 10)) 4 ⟨1, 2⟩) threeLinks fun _ next =>
      ∃ sorted, IsList next 0 1 2 sorted ∧ sorted.Perm [30, 21, 25] ∧
        sorted.Pairwise (fun a b => decide (b / 10 < a / 10) = false) ∧
        ∀ a, sorted.filter (equivalent (fun a b => decide (a / 10 < b / 10)) a) =
          [30, 21, 25].filter (equivalent (fun a b => decide (a / 10 < b / 10)) a) :=
  have ordered := tens_ordered
  @list_sort_sorts Nat _ 0 threeLinks _ ordered ⟨1, 2⟩ _ three_is_list 4 (by decide)

end UtSystems.Libc.ListSort
