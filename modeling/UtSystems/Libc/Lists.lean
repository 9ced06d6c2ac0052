import UtSystems.Lib.Effects
import UtSystems.Lib.ListFamily

/-!
# Kernel lists

The functions of lib/kernel/list.c over the links of their elements, of any type. Reading or
writing through the null pointer and an assertion that does not hold are failures. A loop takes
the number of turns it may make; one that needs more is out of fuel.
-/

namespace UtSystems.Libc.Lists

open Lib.LinkedList Lib.ListFamily

set_option autoImplicit false

inductive Failure where
  | assertion
  | nullPointer
  | outOfFuel
  deriving DecidableEq, Repr

abbrev Kernel (Elem : Type) := EStateM Failure (Links Elem)

variable {Elem : Type} [DecidableEq Elem] (null : Elem)

def assert (holds : Bool) : Kernel Elem Unit :=
  if holds then return () else throw .assertion

def getPrev (elem : Elem) : Kernel Elem Elem := do
  if elem = null then throw .nullPointer else return (← get).prev elem

def getNext (elem : Elem) : Kernel Elem Elem := do
  if elem = null then throw .nullPointer else return (← get).next elem

def setPrev (elem value : Elem) : Kernel Elem Unit :=
  if elem = null then throw .nullPointer
  else modify fun l => { l with prev := Function.update l.prev elem value }

def setNext (elem value : Elem) : Kernel Elem Unit :=
  if elem = null then throw .nullPointer
  else modify fun l => { l with next := Function.update l.next elem value }

def isHead (l : Links Elem) (elem : Elem) : Bool :=
  elem ≠ null && l.prev elem = null && l.next elem ≠ null

def isInterior (l : Links Elem) (elem : Elem) : Bool :=
  elem ≠ null && l.prev elem ≠ null && l.next elem ≠ null

def isTail (l : Links Elem) (elem : Elem) : Bool :=
  elem ≠ null && l.prev elem ≠ null && l.next elem = null

def listInit (list : Sentinels Elem) : Kernel Elem Unit := do
  assert (list.head ≠ null)
  setPrev null list.head null
  setNext null list.head list.tail
  setPrev null list.tail list.head
  setNext null list.tail null

def listBegin (list : Sentinels Elem) : Kernel Elem Elem := do
  assert (list.head ≠ null)
  getNext null list.head

def listNext (elem : Elem) : Kernel Elem Elem := do
  let l ← get
  assert (isHead null l elem || isInterior null l elem)
  getNext null elem

def listEnd (list : Sentinels Elem) : Kernel Elem Elem := do
  assert (list.head ≠ null)
  return list.tail

def listPrev (elem : Elem) : Kernel Elem Elem := do
  let l ← get
  assert (isInterior null l elem || isTail null l elem)
  getPrev null elem

def listInsert (before elem : Elem) : Kernel Elem Unit := do
  let l ← get
  assert (isInterior null l before || isTail null l before)
  assert (elem ≠ null)
  setPrev null elem (← getPrev null before)
  setNext null elem before
  setNext null (← getPrev null before) elem
  setPrev null before elem

def listSplice (before first last : Elem) : Kernel Elem Unit := do
  let l ← get
  assert (isInterior null l before || isTail null l before)
  if first = last then return ()
  else
    let last ← listPrev null last
    let l ← get
    assert (isInterior null l first)
    assert (isInterior null l last)
    -- the range leaves its list
    setNext null (← getPrev null first) (← getNext null last)
    setPrev null (← getNext null last) (← getPrev null first)
    -- and enters the new one
    setPrev null first (← getPrev null before)
    setNext null last before
    setNext null (← getPrev null before) first
    setPrev null before last

def listPushFront (list : Sentinels Elem) (elem : Elem) : Kernel Elem Unit := do
  listInsert null (← listBegin null list) elem

def listPushBack (list : Sentinels Elem) (elem : Elem) : Kernel Elem Unit := do
  listInsert null (← listEnd null list) elem

def listRemove (elem : Elem) : Kernel Elem Elem := do
  let l ← get
  assert (isInterior null l elem)
  setNext null (← getPrev null elem) (← getNext null elem)
  setPrev null (← getNext null elem) (← getPrev null elem)
  getNext null elem

def listEmpty (list : Sentinels Elem) : Kernel Elem Bool := do
  return (← listBegin null list) = (← listEnd null list)

def listFront (list : Sentinels Elem) : Kernel Elem Elem := do
  assert (!(← listEmpty null list))
  getNext null list.head

def listBack (list : Sentinels Elem) : Kernel Elem Elem := do
  assert (!(← listEmpty null list))
  getPrev null list.tail

def listPopFront (list : Sentinels Elem) : Kernel Elem Elem := do
  let front ← listFront null list
  let _ ← listRemove null front
  return front

def listPopBack (list : Sentinels Elem) : Kernel Elem Elem := do
  let back ← listBack null list
  let _ ← listRemove null back
  return back

/-- Where a link is. -/
inductive Place (Elem : Type) where
  | prev (elem : Elem)
  | next (elem : Elem)

def load : Place Elem → Kernel Elem Elem
  | .prev elem => getPrev null elem
  | .next elem => getNext null elem

def store (value : Elem) : Place Elem → Kernel Elem Unit
  | .prev elem => setPrev null elem value
  | .next elem => setNext null elem value

def swap (a b : Place Elem) : Kernel Elem Unit := do
  let t ← load null a
  store null (← load null b) a
  store null t b

def reverseLoop (list : Sentinels Elem) : Nat → Elem → Kernel Elem Unit
  | 0, _ => throw .outOfFuel
  | fuel + 1, e => do
      if e = (← listEnd null list) then return ()
      else
        swap null (.prev e) (.next e)
        reverseLoop list fuel (← getPrev null e)

def listReverse (fuel : Nat) (list : Sentinels Elem) : Kernel Elem Unit := do
  if ← listEmpty null list then return ()
  else
    reverseLoop null list fuel (← listBegin null list)
    swap null (.next list.head) (.prev list.tail)
    swap null (.prev (← getNext null list.head)) (.next (← getPrev null list.tail))

section Ordered

variable (less : Elem → Elem → Bool)

def isSortedLoop (b : Elem) : Nat → Elem → Kernel Elem Bool
  | 0, _ => throw .outOfFuel
  | fuel + 1, a => do
      let a ← listNext null a
      if a = b then return true
      else if less a (← listPrev null a) then return false
      else isSortedLoop b fuel a

def isSorted (fuel : Nat) (a b : Elem) : Kernel Elem Bool :=
  if a = b then return true else isSortedLoop null less b fuel a

def endOfRunLoop (b : Elem) : Nat → Elem → Kernel Elem Elem
  | 0, _ => throw .outOfFuel
  | fuel + 1, a => do
      let a ← listNext null a
      if a = b then return a
      else if less a (← listPrev null a) then return a
      else endOfRunLoop b fuel a

def findEndOfRun (fuel : Nat) (a b : Elem) : Kernel Elem Elem := do
  assert (a ≠ null)
  assert (b ≠ null)
  assert (a ≠ b)
  endOfRunLoop null less b fuel a

def mergeLoop (b1 : Elem) : Nat → Elem → Elem → Kernel Elem Unit
  | 0, _, _ => throw .outOfFuel
  | fuel + 1, a0, a1b0 => do
      if a0 = a1b0 ∨ a1b0 = b1 then return ()
      else if !less a1b0 a0 then mergeLoop b1 fuel (← listNext null a0) a1b0
      else
        let a1b0 ← listNext null a1b0
        listSplice null a0 (← listPrev null a1b0) a1b0
        mergeLoop b1 fuel a0 a1b0

def inplaceMerge (fuel : Nat) (a0 a1b0 b1 : Elem) : Kernel Elem Unit := do
  assert (a0 ≠ null)
  assert (a1b0 ≠ null)
  assert (b1 ≠ null)
  assert (← isSorted null less fuel a0 a1b0)
  assert (← isSorted null less fuel a1b0 b1)
  mergeLoop null less b1 fuel a0 a1b0

/-- One pass of the sort from `a0` on; counts the runs it puts out. -/
def passLoop (steps : Nat) (list : Sentinels Elem) : Nat → Nat → Elem → Kernel Elem Nat
  | 0, _, _ => throw .outOfFuel
  | fuel + 1, outputRunCnt, a0 => do
      if a0 = (← listEnd null list) then return outputRunCnt
      else
        let a1b0 ← findEndOfRun null less steps a0 (← listEnd null list)
        if a1b0 = (← listEnd null list) then return outputRunCnt + 1
        else
          let b1 ← findEndOfRun null less steps a1b0 (← listEnd null list)
          inplaceMerge null less steps a0 a1b0 b1
          passLoop steps list fuel (outputRunCnt + 1) b1

def sortLoop (steps : Nat) (list : Sentinels Elem) : Nat → Kernel Elem Unit
  | 0 => throw .outOfFuel
  | fuel + 1 => do
      let outputRunCnt ← passLoop null less steps list steps 0 (← listBegin null list)
      if 1 < outputRunCnt then sortLoop steps list fuel else return ()

def listSort (steps : Nat) (list : Sentinels Elem) : Kernel Elem Unit := do
  assert (list.head ≠ null)
  sortLoop null less steps list steps
  assert (← isSorted null less steps (← listBegin null list) (← listEnd null list))

def insertionPoint (list : Sentinels Elem) (elem : Elem) : Nat → Elem → Kernel Elem Elem
  | 0, _ => throw .outOfFuel
  | fuel + 1, e => do
      if e = (← listEnd null list) then return e
      else if less elem e then return e
      else insertionPoint list elem fuel (← listNext null e)

def listInsertOrdered (fuel : Nat) (list : Sentinels Elem) (elem : Elem) : Kernel Elem Unit := do
  assert (list.head ≠ null)
  assert (elem ≠ null)
  let e ← insertionPoint null less list elem fuel (← listBegin null list)
  listInsert null e elem

def uniqueLoop (list : Sentinels Elem) (duplicates : Option (Sentinels Elem)) :
    Nat → Elem → Kernel Elem Unit
  | 0, _ => throw .outOfFuel
  | fuel + 1, elem => do
      let next ← listNext null elem
      if next = (← listEnd null list) then return ()
      else if !less elem next && !less next elem then
        let _ ← listRemove null next
        match duplicates with
        | none => uniqueLoop list duplicates fuel elem
        | some others =>
            listPushBack null others next
            uniqueLoop list duplicates fuel elem
      else uniqueLoop list duplicates fuel next

def listUnique (fuel : Nat) (list : Sentinels Elem) (duplicates : Option (Sentinels Elem)) :
    Kernel Elem Unit := do
  assert (list.head ≠ null)
  if ← listEmpty null list then return ()
  else uniqueLoop null less list duplicates fuel (← listBegin null list)

def maxLoop (list : Sentinels Elem) : Nat → Elem → Elem → Kernel Elem Elem
  | 0, _, _ => throw .outOfFuel
  | fuel + 1, max, e => do
      if e = (← listEnd null list) then return max
      else maxLoop list fuel (if less max e then e else max) (← listNext null e)

def listMax (fuel : Nat) (list : Sentinels Elem) : Kernel Elem Elem := do
  let max ← listBegin null list
  if max = (← listEnd null list) then return max
  else maxLoop null less list fuel max (← listNext null max)

def minLoop (list : Sentinels Elem) : Nat → Elem → Elem → Kernel Elem Elem
  | 0, _, _ => throw .outOfFuel
  | fuel + 1, min, e => do
      if e = (← listEnd null list) then return min
      else minLoop list fuel (if less e min then e else min) (← listNext null e)

def listMin (fuel : Nat) (list : Sentinels Elem) : Kernel Elem Elem := do
  let min ← listBegin null list
  if min = (← listEnd null list) then return min
  else minLoop null less list fuel min (← listNext null min)

end Ordered

end UtSystems.Libc.Lists
