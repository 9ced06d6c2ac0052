import UtSystems.Lib.Bytes
import UtSystems.Lib.Generators
import Mathlib.Data.Finite.Prod

/-!
# The random numbers of lib/random.c

A byte is an index of the array `s` as it is. Bytes are added as in C, without the carry.
-/

namespace UtSystems.Libc.Random

open Lib.Bytes Lib.Generators

set_option autoImplicit false

/-- `s`, `s_i` and `s_j`. -/
structure State where
  s : Byte → Byte
  i : Byte
  j : Byte

structure Prng where
  state : State
  inited : Bool

/-- `swap_byte (s + a, s + b)`. -/
def swapByte (s : Byte → Byte) (a b : Byte) : Byte → Byte :=
  let t := s a
  Function.update (Function.update s a (s b)) b t

/-- The second loop of `random_init` before round `i`: `s` and `j`. -/
def mixed (seed : Word) : Nat → (Byte → Byte) × Byte
  | 0 => (id, 0)
  | i + 1 =>
      let (s, j) := mixed seed i
      let j := j + (s (BitVec.ofNat 8 i) + wordByte seed (i % 4))
      (swapByte s (BitVec.ofNat 8 i) j, j)

def seeded (seed : Word) : State := { s := (mixed seed 256).1, i := 0, j := 0 }

def randomInit (seed : Word) : Prng := { state := seeded seed, inited := true }

/-- The body of the loop in `random_bytes` up to the swap. -/
def advance (state : State) : State :=
  let i := state.i + 1
  let j := state.j + state.s i
  { s := swapByte state.s i j, i := i, j := j }

/-- `s[s_k]`. -/
def output (state : State) : Byte := state.s (state.s state.i + state.s state.j)

def randomBytes (prng : Prng) (size : Nat) : List Byte × Prng :=
  let prng := if prng.inited then prng else randomInit 0
  let (bytes, state) := emit advance output size prng.state
  (bytes, { prng with state := state })

def randomUlong (prng : Prng) : Word × Prng :=
  let (bytes, prng) := randomBytes prng 4
  (readWord bytes, prng)

inductive Call where
  | init (seed : Word)
  | bytes (size : Nat)
  | ulong

inductive Answer where
  | done
  | bytes (bytes : List Byte)
  | ulong (value : Word)

def perform (prng : Prng) : Call → Answer × Prng
  | .init seed => (.done, randomInit seed)
  | .bytes size =>
      let (bytes, prng) := randomBytes prng size
      (.bytes bytes, prng)
  | .ulong =>
      let (value, prng) := randomUlong prng
      (.ulong value, prng)

def performAll (prng : Prng) : List Call → List Answer × Prng
  | [] => ([], prng)
  | call :: calls =>
      let (answer, prng) := perform prng call
      let (answers, last) := performAll prng calls
      (answer :: answers, last)

/-- The stream of bytes that a seed stands for. -/
def bytesOf (seed : Word) : Nat → Byte := stream advance output (seeded seed)

/-- A place in the stream of a seed. -/
structure Position where
  seed : Word
  taken : Nat

def Position.read (position : Position) (size : Nat) : List Byte :=
  (List.range size).map fun index => bytesOf position.seed (position.taken + index)

def Position.serve (position : Position) : Call → Answer × Position
  | .init seed => (.done, { seed := seed, taken := 0 })
  | .bytes size =>
      (.bytes (position.read size), { position with taken := position.taken + size })
  | .ulong =>
      (.ulong (readWord (position.read 4)), { position with taken := position.taken + 4 })

def Position.serveAll (position : Position) : List Call → List Answer × Position
  | [] => ([], position)
  | call :: calls =>
      let (answer, position) := position.serve call
      let (answers, last) := position.serveAll calls
      (answer :: answers, last)

section Permutations

variable {s : Byte → Byte}

theorem swap_byte_eq (a b : Byte) : swapByte s a b = s ∘ Equiv.swap a b := by
  funext x
  unfold swapByte Function.comp
  by_cases second : x = b
  · rw [second, Function.update_self, Equiv.swap_apply_right]
  · rw [Function.update_of_ne second]
    by_cases first : x = a
    · rw [first, Function.update_self, Equiv.swap_apply_left]
    · rw [Function.update_of_ne first, Equiv.swap_apply_of_ne_of_ne first second]

theorem swap_byte_swap (a b : Byte) : swapByte (swapByte s a b) a b = s := by
  rw [swap_byte_eq, swap_byte_eq, Function.comp_assoc]
  funext x
  simp

theorem swap_byte_permutes (permutes : Function.Bijective s) (a b : Byte) :
    Function.Bijective (swapByte s a b) := by
  rw [swap_byte_eq]
  exact permutes.comp (Equiv.bijective _)

theorem mixed_permutes (seed : Word) (i : Nat) : Function.Bijective (mixed seed i).1 := by
  induction i with
  | zero => exact Function.bijective_id
  | succ i ih => exact swap_byte_permutes ih _ _

theorem seeded_permutes (seed : Word) : Function.Bijective (seeded seed).s := by
  unfold seeded
  generalize 256 = rounds
  exact mixed_permutes seed rounds

theorem advance_permutes {state : State} (permutes : Function.Bijective state.s) :
    Function.Bijective (advance state).s := swap_byte_permutes permutes _ _

theorem advanced_permutes {state : State} (permutes : Function.Bijective state.s) (count : Nat) :
    Function.Bijective (advance^[count] state).s := by
  induction count with
  | zero => exact permutes
  | succ count ih =>
      rw [Function.iterate_succ_apply']
      exact advance_permutes ih

end Permutations

/-- The step before: `j` is what it was without the byte that has been added. -/
def retreat (state : State) : State :=
  { s := swapByte state.s state.i state.j
    i := state.i - 1
    j := state.j - state.s state.j }

theorem retreat_advance (state : State) : retreat (advance state) = state := by
  have back : (advance state).s (advance state).j = state.s (state.i + 1) := by
    unfold advance
    dsimp only
    rw [swap_byte_eq, Function.comp_apply, Equiv.swap_apply_right]
  unfold retreat
  rw [back]
  unfold advance
  dsimp only
  rw [swap_byte_swap, BitVec.add_sub_cancel, BitVec.add_sub_cancel]

theorem state_finite : Finite State := by
  have byte : Finite Byte :=
    Finite.of_injective BitVec.toFin fun _ _ same => BitVec.eq_of_toFin_eq same
  apply Finite.of_injective fun state : State => (state.s, state.i, state.j)
  intro one two same
  cases one
  cases two
  cases same
  rfl

section Runs

variable {prng : Prng} {position : Position}

/-- The generator stands at a place in the stream of its seed. -/
structure StandsAt (prng : Prng) (position : Position) : Prop where
  fresh : prng.inited = false → position.seed = 0 ∧ position.taken = 0
  state : prng.inited = true → prng.state = advance^[position.taken] (seeded position.seed)

theorem stands_inited (stands : StandsAt prng position) :
    (if prng.inited = true then prng else randomInit 0) =
      { state := advance^[position.taken] (seeded position.seed), inited := true } := by
  by_cases inited : prng.inited = true
  · have state := stands.state inited
    rw [if_pos inited, ← state, ← inited]
  · obtain ⟨zero, none_⟩ := stands.fresh (Bool.not_eq_true _ ▸ inited)
    rw [if_neg inited, zero, none_]
    rfl

theorem random_bytes_reads (stands : StandsAt prng position) (size : Nat) :
    (randomBytes prng size).1 = position.read size ∧
      StandsAt (randomBytes prng size).2 { position with taken := position.taken + size } := by
  unfold randomBytes
  rw [stands_inited stands]
  refine ⟨?_, fun fresh => (by cases fresh), fun _ => ?_⟩
  · dsimp only
    rw [emit_values]
    apply List.map_congr_left
    intro index _
    exact stream_later index position.taken
  · dsimp only
    rw [emit_state, ← Function.iterate_add_apply, Nat.add_comm]

theorem perform_serves (stands : StandsAt prng position) (call : Call) :
    (perform prng call).1 = (position.serve call).1 ∧
      StandsAt (perform prng call).2 (position.serve call).2 := by
  cases call with
  | init seed => exact ⟨rfl, fun fresh => (by cases fresh), fun _ => rfl⟩
  | bytes size =>
      obtain ⟨bytes, after⟩ := random_bytes_reads stands size
      exact ⟨congrArg Answer.bytes bytes, after⟩
  | ulong =>
      obtain ⟨bytes, after⟩ := random_bytes_reads stands 4
      exact ⟨congrArg (Answer.ulong ∘ readWord) bytes, after⟩

theorem perform_all_serves (stands : StandsAt prng position) (calls : List Call) :
    (performAll prng calls).1 = (position.serveAll calls).1 ∧
      StandsAt (performAll prng calls).2 (position.serveAll calls).2 := by
  induction calls generalizing prng position with
  | nil => exact ⟨rfl, stands⟩
  | cons call calls ih =>
      obtain ⟨answer, after⟩ := perform_serves stands call
      obtain ⟨answers, last⟩ := ih after
      exact ⟨congrArg₂ List.cons answer answers, last⟩

end Runs

/-- Whatever has been called before, `random_bytes` and `random_ulong` deliver the next bytes of
the one stream of the seed last set, or of seed 0, and `s` holds every byte once. -/
theorem calls_read_one_stream (state : State) (calls : List Call) :
    (performAll { state := state, inited := false } calls).1 =
        (Position.serveAll { seed := 0, taken := 0 } calls).1 ∧
      ((performAll { state := state, inited := false } calls).2.inited = true →
        Function.Bijective (performAll { state := state, inited := false } calls).2.state.s) := by
  have start : StandsAt { state := state, inited := false } { seed := 0, taken := 0 } :=
    ⟨fun _ => ⟨rfl, rfl⟩, fun inited => (by cases inited)⟩
  obtain ⟨answers, stands⟩ := perform_all_serves start calls
  refine ⟨answers, ?_⟩
  intro inited
  rw [stands.state inited]
  exact advanced_permutes (seeded_permutes _) _

/-- The stream of every seed repeats from its first byte. -/
theorem stream_of_seed_repeats (seed : Word) :
    ∃ period, 0 < period ∧ ∀ index, bytesOf seed (period + index) = bytesOf seed index := by
  have finite := state_finite
  exact stream_repeats (Function.LeftInverse.injective retreat_advance) (seeded seed)

end UtSystems.Libc.Random
