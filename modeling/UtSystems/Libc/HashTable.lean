import Mathlib.Order.Defs.Unbundled
import UtSystems.Lib.KeyedMap

/-!
# Hash tables

`lib/kernel/hash.c`: an array of lists, whose length is a power of two that follows the number of
elements as long as there is memory for a new array. Elements are pointers; an element takes eight
bytes of a memory of 32 bits, so `elem_cnt` and the size of the array do not wrap.
-/

namespace UtSystems.Libc.HashTable

open Lib.KeyedMap

set_option autoImplicit false

/-- `hash` and `less` with what their users promise: a strict weak order, and one hash for all
elements of a class. -/
structure Functions (Elem : Type) where
  hash : Elem → BitVec 32
  less : Elem → Elem → Bool
  weak : IsStrictWeakOrder Elem fun a b => less a b = true
  stable : ∀ a b, less a b = false → less b a = false → hash a = hash b

structure Hash (Elem : Type) where
  elemCnt : Nat
  bucketCnt : Nat
  -- by their indexes
  buckets : Nat → List Elem

variable {Elem : Type}

def findBucket (f : Functions Elem) (h : Hash Elem) (e : Elem) : Nat :=
  (f.hash e).toNat &&& (h.bucketCnt - 1)

def findElem (f : Functions Elem) (h : Hash Elem) (bucket : Nat) (e : Elem) : Option Elem :=
  (h.buckets bucket).find? fun hi => !f.less hi e && !f.less e hi

def turnOffLeast1bit (x : Nat) : Nat := x &&& (x - 1)

def isPowerOf2 (x : Nat) : Bool := x ≠ 0 && turnOffLeast1bit x = 0

/-- The `while` loop of `rehash`. -/
def roundDown (n : Nat) : Nat :=
  if isPowerOf2 n then n
  else if n = 0 then 0
  else roundDown (turnOffLeast1bit n)
termination_by n
decreasing_by
  have le : turnOffLeast1bit n ≤ n - 1 := Nat.and_le_right
  omega

def newBucketCnt (elemCnt : Nat) : Nat :=
  let n := elemCnt / 2
  roundDown (if n < 4 then 4 else n)

def pushFront (h : Hash Elem) (bucket : Nat) (e : Elem) : Hash Elem :=
  { h with buckets := Function.update h.buckets bucket (e :: h.buckets bucket) }

/-- The loops over all buckets and their elements. -/
def eachElem {State : Type} (h : Hash Elem) (action : Elem → State → State) (start : State) :
    State :=
  (List.range h.bucketCnt).foldl
    (fun state i => (h.buckets i).foldl (fun state e => action e state) state) start

/-- Whether `malloc` succeeds is given. -/
def rehash (f : Functions Elem) (memory : Bool) (h : Hash Elem) : Hash Elem :=
  let newCnt := newBucketCnt h.elemCnt
  if newCnt = h.bucketCnt then h
  else if memory = false then h
  else
    eachElem h (fun e new => pushFront new (findBucket f new e) e)
      { h with bucketCnt := newCnt, buckets := fun _ => [] }

def insertElem (h : Hash Elem) (bucket : Nat) (e : Elem) : Hash Elem :=
  { pushFront h bucket e with elemCnt := h.elemCnt + 1 }

/-- `list_remove` takes the element out of whatever list it is in. -/
def removeElem [DecidableEq Elem] (h : Hash Elem) (e : Elem) : Hash Elem :=
  { h with elemCnt := h.elemCnt - 1, buckets := fun i => (h.buckets i).erase e }

def hashClear {State : Type} (destructor : Option (Elem → State → State)) (h : Hash Elem)
    (state : State) : State × Hash Elem :=
  let state := match destructor with
    | none => state
    | some destroy => eachElem h destroy state
  (state, { h with elemCnt := 0, buckets := fun _ => [] })

def hashInsert (f : Functions Elem) (memory : Bool) (h : Hash Elem) (new : Elem) :
    Option Elem × Hash Elem :=
  let bucket := findBucket f h new
  let old := findElem f h bucket new
  (old, rehash f memory (if old = none then insertElem h bucket new else h))

def hashReplace [DecidableEq Elem] (f : Functions Elem) (memory : Bool) (h : Hash Elem)
    (new : Elem) : Option Elem × Hash Elem :=
  let bucket := findBucket f h new
  match findElem f h bucket new with
  | none => (none, rehash f memory (insertElem h bucket new))
  | some old => (some old, rehash f memory (insertElem (removeElem h old) bucket new))

def hashFind (f : Functions Elem) (h : Hash Elem) (e : Elem) : Option Elem :=
  findElem f h (findBucket f h e) e

def hashDelete [DecidableEq Elem] (f : Functions Elem) (memory : Bool) (h : Hash Elem) (e : Elem) :
    Option Elem × Hash Elem :=
  match findElem f h (findBucket f h e) e with
  | none => (none, h)
  | some found => (some found, rehash f memory (removeElem h found))

def Hash.elements (h : Hash Elem) : List Elem := (List.range h.bucketCnt).flatMap h.buckets

/-- Equal elements are those of which neither is less. -/
def Functions.setoid (f : Functions Elem) : Setoid Elem where
  r := fun a b => f.less a b = false ∧ f.less b a = false
  iseqv := {
    refl := by
      intro a
      have strict := f.weak.irrefl a
      rw [Bool.not_eq_true] at strict
      exact ⟨strict, strict⟩
    symm := And.symm
    trans := by
      intro a b c first second
      have chain := f.weak.incomp_trans a b c
      simp only [Bool.not_eq_true] at chain
      exact chain first second }

def Functions.Key (f : Functions Elem) : Type := Quotient f.setoid

def Functions.key (f : Functions Elem) (e : Elem) : f.Key := Quotient.mk f.setoid e

instance (f : Functions Elem) : DecidableEq f.Key :=
  @Quotient.decidableEq _ f.setoid fun a b =>
    inferInstanceAs (Decidable (f.less a b = false ∧ f.less b a = false))

structure Placed (f : Functions Elem) (h : Hash Elem) : Prop where
  power : h.bucketCnt.isPowerOfTwo
  four : 4 ≤ h.bucketCnt
  inBucket : ∀ i, i < h.bucketCnt → ∀ e ∈ h.buckets i, findBucket f h e = i

theorem find_bucket_lt {f : Functions Elem} {h : Hash Elem} (placed : Placed f h) (e : Elem) :
    findBucket f h e < h.bucketCnt := by
  have le : findBucket f h e ≤ h.bucketCnt - 1 := Nat.and_le_right
  have four := placed.four
  omega

theorem elements_split (buckets : Nat → List Elem) {n i : Nat} (inside : i < n) :
    ∃ front back, (List.range n).flatMap buckets = front ++ (buckets i ++ back) ∧
      ∀ list, (List.range n).flatMap (Function.update buckets i list) =
        front ++ (list ++ back) := by
  induction n with
  | zero => exact absurd inside (Nat.not_lt_zero i)
  | succ n ih =>
      have last : ∀ b : Nat → List Elem,
          (List.range (n + 1)).flatMap b = (List.range n).flatMap b ++ b n := by
        intro b
        rw [List.range_succ, List.flatMap_append, List.flatMap_singleton]
      by_cases isLast : i = n
      · refine ⟨(List.range n).flatMap buckets, [], ?_, ?_⟩
        · rw [last, isLast, List.append_nil]
        · intro list
          have others : (List.range n).flatMap (Function.update buckets i list) =
              (List.range n).flatMap buckets := by
            apply List.flatMap_congr
            intro j member
            apply Function.update_of_ne
            have below := List.mem_range.mp member
            omega
          rw [last, others, isLast, Function.update_self, List.append_nil]
      · obtain ⟨front, back, split, updated⟩ := ih (by omega)
        refine ⟨front, back ++ buckets n, ?_, ?_⟩
        · rw [last, split, List.append_assoc, List.append_assoc]
        · intro list
          rw [last, updated, Function.update_of_ne (Ne.symm isLast), List.append_assoc,
            List.append_assoc]

theorem push_elements {h : Hash Elem} {bucket : Nat} {e : Elem} (inside : bucket < h.bucketCnt) :
    (pushFront h bucket e).elements.Perm (e :: h.elements) := by
  obtain ⟨front, back, split, updated⟩ := elements_split h.buckets inside
  unfold Hash.elements pushFront
  dsimp only
  rw [updated, split]
  exact List.perm_middle

theorem push_placed {f : Functions Elem} {h : Hash Elem} {e : Elem} (placed : Placed f h) :
    Placed f (pushFront h (findBucket f h e) e) where
  power := placed.power
  four := placed.four
  inBucket := by
    intro i inside x member
    change x ∈ Function.update h.buckets (findBucket f h e) (e :: h.buckets (findBucket f h e)) i
      at member
    by_cases same : i = findBucket f h e
    · rw [same, Function.update_self, List.mem_cons] at member
      cases member with
      | inl isNew => rw [isNew, same]; rfl
      | inr old => exact placed.inBucket i inside x (same ▸ old)
    · rw [Function.update_of_ne same] at member
      exact placed.inBucket i inside x member

/-- The elements of a list are moved to the table, each to the bucket of its hash. -/
theorem moved {f : Functions Elem} (list : List Elem) {h : Hash Elem} (placed : Placed f h) :
    let new := list.foldl (fun new e => pushFront new (findBucket f new e) e) h
    Placed f new ∧ new.elements.Perm (list ++ h.elements) ∧ new.elemCnt = h.elemCnt := by
  induction list generalizing h with
  | nil => exact ⟨placed, List.Perm.refl _, rfl⟩
  | cons e list ih =>
      obtain ⟨ends, perm, count⟩ := ih (push_placed (e := e) placed)
      refine ⟨ends, ?_, count⟩
      apply perm.trans
      apply ((push_elements (find_bucket_lt placed e)).append_left list).trans
      exact List.perm_middle

/-- The table has the values of the map, in the buckets of their hashes, and counts them. -/
structure Represents (f : Functions Elem) (h : Hash Elem) (map : f.Key → Option Elem) : Prop where
  placed : Placed f h
  count : h.elemCnt = h.elements.length
  lists : Lists f.key map h.elements

inductive Call (Elem : Type) where
  -- with what `malloc` does in `rehash`
  | insert (new : Elem) (memory : Bool)
  | replace (new : Elem) (memory : Bool)
  | find (e : Elem)
  | delete (e : Elem) (memory : Bool)
  | clear

variable [DecidableEq Elem]

def call (f : Functions Elem) (h : Hash Elem) : Call Elem → Option Elem × Hash Elem
  | .insert new memory => hashInsert f memory h new
  | .replace new memory => hashReplace f memory h new
  | .find e => (hashFind f h e, h)
  | .delete e memory => hashDelete f memory h e
  | .clear => (none, (hashClear none h ()).2)

end UtSystems.Libc.HashTable
