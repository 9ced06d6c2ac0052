import Mathlib.Data.List.Chain
import Mathlib.Order.Defs.Unbundled
import Mathlib.Tactic.Common

/-!
# Merging the runs of a sequence

A pass over a sequence merges its first two nondecreasing runs, then the next two, and so on.
Equivalent elements keep their order, and about half of the descents are left.
-/

namespace UtSystems.Lib.NaturalMerge

set_option autoImplicit false

variable {Elem : Type*} {less : Elem → Elem → Bool}

def notAfter (less : Elem → Elem → Bool) (a b : Elem) : Bool := !less b a

def equivalent (less : Elem → Elem → Bool) (a b : Elem) : Bool := !less a b && !less b a

/-- The number of elements below their predecessor. -/
def descents (less : Elem → Elem → Bool) : List Elem → Nat
  | a :: b :: rest => (if less b a then 1 else 0) + descents less (b :: rest)
  | _ => 0

/-- Neighbours are in order. -/
def Ascending (less : Elem → Elem → Bool) (xs : List Elem) : Prop :=
  xs.IsChain fun a b => less b a = false

section Order

variable [order : IsStrictWeakOrder Elem fun a b => less a b = true] {a b c : Elem}

theorem less_asymm (below : less a b = true) : less b a = false := by
  cases back : less b a with
  | false => rfl
  | true => exact absurd (order.trans a b a below back) (order.irrefl a)

theorem not_less_trans (first : less b a = false) (second : less c b = false) :
    less c a = false := by
  cases up : less c a with
  | false => rfl
  | true =>
      have notAB : ¬less a b = true := by
        intro below
        rw [order.trans c a b up below] at second
        cases second
      have notBC : ¬less b c = true := by
        intro below
        rw [order.trans b c a below up] at first
        cases first
      have apart := order.incomp_trans a b c ⟨notAB, by simp [first]⟩ ⟨notBC, by simp [second]⟩
      exact absurd up apart.2

theorem less_of_less_of_not_less (below : less a b = true) (notAbove : less c b = false) :
    less a c = true := by
  cases up : less a c with
  | true => rfl
  | false =>
      rw [not_less_trans notAbove up] at below
      cases below

theorem equivalent_false (below : less a b = true) (same : equivalent less c a = true) :
    equivalent less c b = false := by
  simp only [equivalent, Bool.and_eq_true, Bool.not_eq_true'] at same
  have up : less c b = true := by
    cases low : less c b with
    | true => rfl
    | false =>
        rw [not_less_trans low same.2] at below
        cases below
  simp [equivalent, up]

end Order

section Sorted

variable [IsStrictWeakOrder Elem fun a b => less a b = true] {xs ys : List Elem}

theorem ascending_iff :
    Ascending less xs ↔ xs.Pairwise fun a b => notAfter less a b = true := by
  have transitive : IsTrans Elem fun a b => less b a = false :=
    ⟨fun _ _ _ first second => not_less_trans first second⟩
  simp only [Ascending, notAfter, Bool.not_eq_true']
  exact List.isChain_iff_pairwise

theorem ascending_merge (first : Ascending less xs) (second : Ascending less ys) :
    Ascending less (xs.merge ys (notAfter less)) := by
  rw [ascending_iff] at first second ⊢
  apply List.pairwise_merge _ _ xs ys first second
  · intro a b c
    simp only [notAfter, Bool.not_eq_true']
    exact not_less_trans
  · intro a b
    cases below : less b a with
    | false => simp [notAfter, below]
    | true => simp [notAfter, less_asymm below]

end Sorted

section Rearrangements

/-- The same elements, the equivalent ones in the same order. -/
structure Rearranged (less : Elem → Elem → Bool) (xs ys : List Elem) : Prop where
  perm : xs.Perm ys
  stable : ∀ a, xs.filter (equivalent less a) = ys.filter (equivalent less a)

variable {xs ys zs others : List Elem}

theorem rearranged_refl : Rearranged less xs xs := ⟨.refl xs, fun _ => rfl⟩

theorem rearranged_trans (first : Rearranged less xs ys) (second : Rearranged less ys zs) :
    Rearranged less xs zs :=
  ⟨first.perm.trans second.perm, fun a => (first.stable a).trans (second.stable a)⟩

theorem rearranged_append (first : Rearranged less xs ys) (second : Rearranged less zs others) :
    Rearranged less (xs ++ zs) (ys ++ others) where
  perm := first.perm.append second.perm
  stable := by
    intro a
    rw [List.filter_append, List.filter_append, first.stable, second.stable]

variable [IsStrictWeakOrder Elem fun a b => less a b = true]

theorem rearranged_merge (sorted : Ascending less xs) :
    Rearranged less (xs ++ ys) (xs.merge ys (notAfter less)) where
  perm := (List.merge_perm_append (notAfter less)).symm
  stable := by
    intro a
    induction xs generalizing ys with
    | nil => rw [List.nil_append, List.nil_merge]
    | cons x xs ihx =>
        induction ys with
        | nil => rw [List.append_nil, List.merge_right]
        | cons y ys ihy =>
            cases below : less y x with
            | false =>
                have first : notAfter less x y = true := by simp [notAfter, below]
                rw [List.cons_merge_cons_pos _ _ _ first, List.cons_append, List.filter_cons,
                  List.filter_cons, ihx sorted.tail]
            | true =>
                have second : ¬notAfter less x y = true := by simp [notAfter, below]
                rw [List.cons_merge_cons_neg _ _ _ second, List.filter_cons, ← ihy,
                  List.filter_append, List.filter_append, List.filter_cons (x := y)]
                cases same : equivalent less a y with
                | false => rfl
                | true =>
                    -- nothing of the first run is equivalent to an element below its first one
                    have none_ : (x :: xs).filter (equivalent less a) = [] := by
                      rw [List.filter_eq_nil_iff]
                      intro z inside
                      have up : less y z = true := by
                        cases List.mem_cons.mp inside with
                        | inl isFirst =>
                            rw [isFirst]
                            exact below
                        | inr later =>
                            have ordered := (List.pairwise_cons.mp (ascending_iff.mp sorted)).1 z later
                            simp only [notAfter, Bool.not_eq_true'] at ordered
                            exact less_of_less_of_not_less below ordered
                      simp [equivalent_false up same]
                    rw [none_]
                    rfl

end Rearrangements

section Passes

variable {xs ys run other rest done : List Elem} {runs : Nat}

theorem descents_ascending (sorted : Ascending less xs) : descents less xs = 0 := by
  induction xs with
  | nil => rfl
  | cons a rest ih =>
      cases rest with
      | nil => rfl
      | cons b rest =>
          obtain ⟨first, sorted⟩ := List.isChain_cons_cons.mp sorted
          simp [descents, first, ih sorted]

theorem ascending_of_descents (none_ : descents less xs = 0) : Ascending less xs := by
  induction xs with
  | nil => exact .nil
  | cons a rest ih =>
      cases rest with
      | nil => exact .singleton a
      | cons b rest =>
          simp only [descents, Nat.add_eq_zero_iff] at none_
          refine List.isChain_cons_cons.mpr ⟨?_, ih none_.2⟩
          simpa using none_.1

theorem descents_append_le :
    descents less (xs ++ ys) ≤ descents less xs + descents less ys + 1 := by
  induction xs with
  | nil => simp [descents]
  | cons a xs ih =>
      cases xs with
      | nil =>
          cases ys with
          | nil => simp [descents]
          | cons b ys =>
              simp only [List.cons_append, List.nil_append, descents]
              split <;> omega
      | cons b xs =>
          simp only [List.cons_append, descents] at ih ⊢
          omega

theorem descents_lt_length {a : Elem} : descents less (a :: xs) ≤ xs.length := by
  induction xs generalizing a with
  | nil => rfl
  | cons b rest ih =>
      simp only [descents, List.length_cons]
      have tail := @ih b
      split <;> omega

/-- A nonempty run that ends at a descent or at the end. -/
structure FirstRun (less : Elem → Elem → Bool) (run rest : List Elem) : Prop where
  sorted : Ascending less run
  nonempty : run ≠ []
  ends : rest ≠ [] → descents less (run ++ rest) = descents less rest + 1

/-- What a pass over `xs` may leave when it has put out `runs` runs. -/
structure Passed (less : Elem → Elem → Bool) (xs done : List Elem) (runs : Nat) : Prop where
  rearranged : Rearranged less xs done
  few : 2 * runs ≤ descents less xs + 2
  none_ : xs = [] → runs = 0
  sorted : done ≠ [] → descents less done < runs

theorem passed_nil : Passed less [] [] 0 :=
  ⟨rearranged_refl, Nat.zero_le _, fun _ => rfl, fun some_ => absurd rfl some_⟩

theorem passed_last (first : FirstRun less run []) : Passed less run run 1 where
  rearranged := rearranged_refl
  few := Nat.le_add_left 2 _
  none_ := fun empty => absurd empty first.nonempty
  sorted := by
    intro _
    rw [descents_ascending first.sorted]
    exact Nat.one_pos

variable [IsStrictWeakOrder Elem fun a b => less a b = true]

theorem passed_merge (first : FirstRun less run (other ++ rest)) (second : FirstRun less other rest)
    (later : Passed less rest done runs) :
    Passed less (run ++ other ++ rest) (run.merge other (notAfter less) ++ done) (runs + 1) where
  rearranged := rearranged_append (rearranged_merge first.sorted) later.rearranged
  few := by
    have one := first.ends (by simp [second.nonempty])
    have few := later.few
    rw [List.append_assoc, one]
    cases rest with
    | nil =>
        rw [later.none_ rfl]
        omega
    | cons a rest =>
        have two := second.ends (List.cons_ne_nil a rest)
        omega
  none_ := by
    intro empty
    simp [first.nonempty] at empty
  sorted := by
    intro _
    have merged := descents_ascending (ascending_merge first.sorted second.sorted)
    cases done with
    | nil =>
        rw [List.append_nil, merged]
        exact Nat.succ_pos runs
    | cons a done =>
        have joined := @descents_append_le _ less (run.merge other (notAfter less)) (a :: done)
        have fewer := later.sorted (List.cons_ne_nil a done)
        omega

end Passes

end UtSystems.Lib.NaturalMerge
