import UtSystems.Libc.Strings
import Mathlib.Data.List.Forall2

/-!
# All tokens of a string

`strtok_r` is called with a string, and then with the null pointer until it returns the null
pointer. The string stands between what is in front of it and what is behind its null byte.
-/

namespace UtSystems.Libc.Tokeniser

open Lib.Bytes Lib.Tokens Libc.Strings

set_option autoImplicit false

/-- The loop of `strchr`, over a string with its null byte. -/
def strchrLoop (c : Byte) : List Byte → Nat → Option Nat
  | [], _ => none
  | x :: rest, string =>
      if x = c then some string
      else if x = 0 then none
      else strchrLoop c rest (string + 1)

/-- `strtok_r (s, delimiters, save_ptr)` with `*save_ptr`; none is the null pointer. -/
def strtok (delimiters buf : List Byte) (s : Option Nat) (savePtr : Nat) :
    Except Fault (Option Nat × List Byte × Nat) :=
  strtokR delimiters buf (s.getD savePtr)

/-- The calls up to the first that returns the null pointer, which is among the first `calls`: the
tokens, the array and `*save_ptr`. -/
def strtokCalls (delimiters : List Byte) :
    Nat → List Byte → Option Nat → Nat → Except Fault (List Nat × List Byte × Nat)
  | 0, _, _, _ => .error .endless
  | calls + 1, buf, s, savePtr => do
      let (token, buf, savePtr) ← strtok delimiters buf s savePtr
      match token with
      | none => .ok ([], buf, savePtr)
      | some token =>
          let (found, buf, savePtr) ← strtokCalls delimiters calls buf none savePtr
          .ok (token :: found, buf, savePtr)

/-- What has become of a string: at the places `found` stand its tokens, and some of its delimiters
are null bytes. -/
structure Tokenised (delimiters text : List Byte) (found : List Nat) (cut : List Byte) : Prop where
  strings : List.Forall₂ (HasString (cut ++ [0])) found (tokens (separates delimiters) text)
  inside : ∀ token ∈ found, token < text.length
  ordered : found.Pairwise (· < ·)
  cuts : List.Forall₂ (fun x c => c = x ∨ separates delimiters x = true ∧ c = 0) text cut

section Searching

variable {delimiters : List Byte} {c : Byte}

theorem strchr_loop (noNul : (0 : Byte) ∉ delimiters) (string : Nat) :
    (strchrLoop c (delimiters ++ [0]) string).isSome = strchr delimiters c := by
  induction delimiters generalizing string with
  | nil =>
      rw [List.nil_append, strchrLoop]
      by_cases isNul : c = 0
      · rw [isNul, if_pos rfl]
        rfl
      · rw [if_neg (Ne.symm isNul), if_pos rfl]
        simpa [strchr] using isNul
  | cons x rest ih =>
      have nonzero : x ≠ 0 := fun isNul => noNul (isNul ▸ List.mem_cons_self)
      have clean : (0 : Byte) ∉ rest := fun inside => noNul (List.mem_cons_of_mem x inside)
      rw [List.cons_append, strchrLoop]
      by_cases same : x = c
      · rw [if_pos same, same]
        simp [strchr]
      · rw [if_neg same, if_neg nonzero, ih clean]
        simp [strchr, Ne.symm same]

end Searching

section Places

variable {delimiters buf text cut word front : List Byte} {s : Nat}

/-- A string stands behind anything that is put in front of it. -/
theorem has_string_shift (has : HasString buf s word) :
    HasString (front ++ buf) (front.length + s) word := by
  obtain ⟨noNul, junk, stands⟩ := has
  refine ⟨noNul, junk, ?_⟩
  rw [List.drop_length_add_append, stands]

theorem has_string_front (noNul : (0 : Byte) ∉ word) (front junk : List Byte) :
    HasString (front ++ (word ++ 0 :: junk)) front.length word :=
  ⟨noNul, junk, List.drop_left⟩

end Places

section Tokens

variable {delimiters text : List Byte}

theorem uncut (text : List Byte) :
    List.Forall₂ (fun x c => c = x ∨ separates delimiters x = true ∧ c = 0) text text :=
  List.forall₂_same.mpr fun _ _ => .inl rfl

/-- At the null byte of the string, `strtok_r` returns the null pointer. -/
theorem strtok_at_end (front junk : List Byte) :
    strtok delimiters (front ++ 0 :: junk) none front.length =
      .ok (none, front ++ 0 :: junk, front.length) := by
  have has : HasString (front ++ 0 :: junk) front.length [] :=
    has_string_front List.not_mem_nil front junk
  exact strtok_ends has fun _ inside => nomatch inside

/-- What the calls from the string on do, whatever stands around it. -/
def Calls (delimiters text : List Byte) (found : List Nat) (cut : List Byte) : Prop :=
  ∀ front junk s savePtr, s.getD savePtr = front.length →
    strtokCalls delimiters ((tokens (separates delimiters) text).length + 1)
        (front ++ (text ++ 0 :: junk)) s savePtr =
      .ok (found.map (front.length + ·), front ++ (cut ++ 0 :: junk), front.length + text.length)

section Cases

variable {gap word later : List Byte} {d : Byte} {found : List Nat} {cut : List Byte}

theorem tokenised_none (none_ : tokens (separates delimiters) text = []) :
    Tokenised delimiters text [] text := by
  refine ⟨?_, nofun, List.Pairwise.nil, uncut text⟩
  rw [none_]
  exact List.Forall₂.nil

theorem calls_none (noNul : (0 : Byte) ∉ text) (isGap : ∀ x ∈ text, separates delimiters x = true)
    (none_ : tokens (separates delimiters) text = []) : Calls delimiters text [] text := by
  intro front junk s savePtr start
  have called := strtok_ends (has_string_front noNul front junk) isGap
  rw [none_]
  unfold strtokCalls strtok
  rw [start, called]
  rfl

theorem tokenised_last (noNul : (0 : Byte) ∉ gap ++ word) (nonempty : word ≠ [])
    (all : tokens (separates delimiters) (gap ++ word) = [word]) :
    Tokenised delimiters (gap ++ word) [gap.length] (gap ++ word) := by
  have wordClean : (0 : Byte) ∉ word := fun inside => noNul (List.mem_append_right _ inside)
  have positive := List.length_pos_iff.mpr nonempty
  refine ⟨?_, ?_, List.pairwise_singleton _ _, uncut _⟩
  · rw [all, List.append_assoc]
    exact List.Forall₂.cons (has_string_front wordClean gap []) List.Forall₂.nil
  · intro token member
    rw [List.mem_singleton.mp member, List.length_append]
    omega

theorem calls_last (noNul : (0 : Byte) ∉ gap ++ word)
    (isGap : ∀ x ∈ gap, separates delimiters x = true) (nonempty : word ≠ [])
    (free : ∀ x ∈ word, separates delimiters x = false)
    (all : tokens (separates delimiters) (gap ++ word) = [word]) :
    Calls delimiters (gap ++ word) [gap.length] (gap ++ word) := by
  intro front junk s savePtr start
  obtain ⟨called, _, _⟩ := strtok_last (has_string_front noNul front junk) isGap nonempty free
  have atEnd := @strtok_at_end delimiters (front ++ (gap ++ word)) junk
  rw [List.append_assoc, List.length_append, List.length_append, ← Nat.add_assoc] at atEnd
  rw [all]
  unfold strtokCalls strtok
  rw [start, called]
  change (strtokCalls delimiters 1 _ none _ >>= _) = _
  unfold strtokCalls
  rw [atEnd, List.length_append, ← Nat.add_assoc]
  rfl

/-! ## A token that ends at a delimiter -/

theorem cut_length : (gap ++ word ++ [0]).length = gap.length + word.length + 1 := by
  rw [List.length_append, List.length_append, List.length_singleton]

theorem tokenised_cut (noNul : (0 : Byte) ∉ gap ++ word ++ d :: later) (nonempty : word ≠ [])
    (isSep : separates delimiters d = true)
    (all : tokens (separates delimiters) (gap ++ word ++ d :: later) =
      word :: tokens (separates delimiters) later)
    (tokenised : Tokenised delimiters later found cut) :
    Tokenised delimiters (gap ++ word ++ d :: later)
      (gap.length :: found.map ((gap ++ word ++ [0]).length + ·)) (gap ++ word ++ [0] ++ cut) := by
  have wordClean : (0 : Byte) ∉ word := by
    exact fun inside => noNul (List.mem_append_left _ (List.mem_append_right _ inside))
  have positive := List.length_pos_iff.mpr nonempty
  have behind := @cut_length gap word
  have lengths : (gap ++ word ++ d :: later).length =
      gap.length + word.length + (later.length + 1) := by
    rw [List.length_append, List.length_append, List.length_cons]
  constructor
  case strings =>
    rw [all]
    refine List.Forall₂.cons ?_ ?_
    · have first := has_string_front wordClean gap (cut ++ [0])
      simpa using first
    · rw [List.forall₂_map_left_iff, List.append_assoc]
      exact tokenised.strings.imp fun _ _ has => has_string_shift has
  case inside =>
    intro token member
    rcases List.mem_cons.mp member with isFirst | member
    · omega
    · obtain ⟨place, among, rfl⟩ := List.mem_map.mp member
      have inside := tokenised.inside place among
      omega
  case ordered =>
    refine List.pairwise_cons.mpr ⟨?_, ?_⟩
    · intro token member
      obtain ⟨place, _, rfl⟩ := List.mem_map.mp member
      omega
    · rw [List.pairwise_map]
      exact tokenised.ordered.imp fun less => Nat.add_lt_add_left less _
  case cuts =>
    have front := List.rel_append (@uncut delimiters gap) (@uncut delimiters word)
    rw [List.append_assoc (gap ++ word) [0]]
    exact List.rel_append front (List.Forall₂.cons (.inr ⟨isSep, rfl⟩) tokenised.cuts)

/-- The null byte that `strtok_r` stores where the token ends. -/
theorem delimiter_cut (front junk : List Byte) :
    (front ++ (gap ++ word ++ d :: later ++ 0 :: junk)).set
        (front.length + gap.length + word.length) 0 =
      front ++ (gap ++ word ++ [0]) ++ (later ++ 0 :: junk) := by
  have whole : front ++ (gap ++ word ++ d :: later ++ 0 :: junk) =
      front ++ (gap ++ word) ++ d :: (later ++ 0 :: junk) := by
    simp only [List.append_assoc, List.cons_append]
  have place : front.length + gap.length + word.length = (front ++ (gap ++ word)).length := by
    rw [List.length_append, List.length_append, Nat.add_assoc]
  rw [whole, place, List.set_append_right _ _ (Nat.le_refl _), Nat.sub_self, List.set_cons_zero]
  simp only [List.append_assoc, List.cons_append, List.nil_append]

theorem calls_cut (noNul : (0 : Byte) ∉ gap ++ word ++ d :: later)
    (isGap : ∀ x ∈ gap, separates delimiters x = true) (nonempty : word ≠ [])
    (free : ∀ x ∈ word, separates delimiters x = false) (isSep : separates delimiters d = true)
    (all : tokens (separates delimiters) (gap ++ word ++ d :: later) =
      word :: tokens (separates delimiters) later)
    (calls : Calls delimiters later found cut) :
    Calls delimiters (gap ++ word ++ d :: later)
      (gap.length :: found.map ((gap ++ word ++ [0]).length + ·)) (gap ++ word ++ [0] ++ cut) := by
  intro front junk s savePtr start
  have has := has_string_front noNul front junk
  obtain ⟨called, _, _⟩ := strtok_cuts has isGap nonempty free isSep
  have behind := @cut_length gap word
  have next := calls (front ++ (gap ++ word ++ [0])) junk none
    (front.length + gap.length + word.length + 1)
    (by rw [List.length_append, behind, Option.getD_none]; omega)
  have places : (front.length + gap.length) ::
      found.map ((front ++ (gap ++ word ++ [0])).length + ·) =
      (gap.length :: found.map ((gap ++ word ++ [0]).length + ·)).map (front.length + ·) := by
    rw [List.map_cons, List.map_map, List.length_append]
    congr 1
    exact List.map_congr_left fun _ _ => Nat.add_assoc ..
  have storage : front ++ (gap ++ word ++ [0]) ++ (cut ++ 0 :: junk) =
      front ++ (gap ++ word ++ [0] ++ cut ++ 0 :: junk) := by
    simp only [List.append_assoc]
  have last : (front ++ (gap ++ word ++ [0])).length + later.length =
      front.length + (gap ++ word ++ d :: later).length := by
    rw [List.length_append, behind, List.length_append, List.length_append, List.length_cons]
    omega
  rw [all, List.length_cons]
  unfold strtokCalls strtok
  rw [start, called, delimiter_cut]
  change (strtokCalls delimiters _ _ none _ >>= _) = _
  rw [next, ← places, ← storage, ← last]
  rfl

end Cases

theorem strtok_calls_tokens (noNul : (0 : Byte) ∉ text) :
    ∃ found cut, Tokenised delimiters text found cut ∧ Calls delimiters text found cut := by
  induction size : text.length using Nat.strong_induction_on generalizing text with
  | _ n ih =>
      rcases tokens_cases (separates delimiters) text with
        ⟨isGap, none_⟩ | ⟨gap, word, rest, split, isGap, nonempty, free, ends⟩
      · exact ⟨_, _, tokenised_none none_, calls_none noNul isGap none_⟩
      · rcases ends with ⟨noRest, all⟩ | ⟨d, later, isRest, isSep, all⟩
        · rw [noRest, List.append_nil] at split
          rw [split] at noNul all ⊢
          exact ⟨_, _, tokenised_last noNul nonempty all, calls_last noNul isGap nonempty free all⟩
        · rw [isRest] at split
          have shorter : later.length < n := by
            rw [← size, split, List.length_append, List.length_cons]
            omega
          rw [split] at noNul all ⊢
          have clean : (0 : Byte) ∉ later := fun inside =>
            noNul (List.mem_append_right _ (List.mem_cons_of_mem d inside))
          obtain ⟨found, cut, tokenised, calls⟩ := ih later.length shorter clean rfl
          exact ⟨_, _, tokenised_cut noNul nonempty isSep all tokenised,
            calls_cut noNul isGap nonempty free isSep all calls⟩

end Tokens

/-- `strtok_r`, called with a string and then with the null pointer, returns the tokens of the
string one after another and then the null pointer, for good. It changes nothing but delimiters of
the string, into null bytes, and what stands around the string makes no difference. -/
theorem strtok_calls_yield_tokens (delimiters text : List Byte) (noNul : (0 : Byte) ∉ text) :
    ∃ found cut, Tokenised delimiters text found cut ∧ ∀ front junk savePtr,
      strtokCalls delimiters ((tokens (separates delimiters) text).length + 1)
          (front ++ (text ++ 0 :: junk)) (some front.length) savePtr =
        .ok (found.map (front.length + ·), front ++ (cut ++ 0 :: junk),
          front.length + text.length) ∧
      ∀ others, strtok others (front ++ (cut ++ 0 :: junk)) none (front.length + text.length) =
        .ok (none, front ++ (cut ++ 0 :: junk), front.length + text.length) := by
  obtain ⟨found, cut, tokenised, calls⟩ := @strtok_calls_tokens delimiters text noNul
  refine ⟨found, cut, tokenised, ?_⟩
  intro front junk savePtr
  refine ⟨calls front junk (some front.length) savePtr rfl, ?_⟩
  intro others
  have atEnd := @strtok_at_end others (front ++ cut) junk
  have same := tokenised.cuts.length_eq
  rw [List.append_assoc, List.length_append, ← same] at atEnd
  exact atEnd

/-- `" a,,b"` with the delimiters blank and comma. -/
theorem strtok_calls_yield_tokens_two :
    ∃ found cut, Tokenised [0x20, 0x2c] [0x20, 0x61, 0x2c, 0x2c, 0x62] found cut ∧
      strtokCalls [0x20, 0x2c] 3 [0x20, 0x61, 0x2c, 0x2c, 0x62, 0] (some 0) 0 =
        .ok (found, cut ++ [0], 5) := by
  obtain ⟨found, cut, tokenised, calls⟩ := strtok_calls_yield_tokens [0x20, 0x2c]
    [0x20, 0x61, 0x2c, 0x2c, 0x62] (by decide)
  refine ⟨found, cut, tokenised, ?_⟩
  have two : tokens (separates [0x20, 0x2c]) ([0x20, 0x61, 0x2c, 0x2c, 0x62] : List Byte) =
      [[0x61], [0x62]] := by
    decide
  have called := (calls [] [] 0).1
  rw [two] at called
  simpa using called

end UtSystems.Libc.Tokeniser
