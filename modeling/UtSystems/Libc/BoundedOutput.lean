import UtSystems.Libc.FormatStrings

/-!
# Output into a buffer

What `__vprintf` puts out does not depend on where it goes, and `vsnprintf` stores the beginning
of it. The number of characters it may store is kept in a signed 32-bit number.
-/

namespace UtSystems.Libc.BoundedOutput

open Lib.Bytes Lib.AddressRanges Libc.Stdio Libc.IntegerFormat Libc.FormatStrings

set_option autoImplicit false

/-! ## Programs that do not look at what has been put out -/

/-- A program that puts out the same characters, or ends in the same fault, for every callback. -/
def Uniform (program : ∀ σ : Type, (Byte → σ → σ) → σ → Except Fault σ) : Prop :=
  ∃ chars : Except Fault (List Byte), ∀ (σ : Type) (output : Byte → σ → σ) (aux : σ),
    program σ output aux = chars.map fun chars => outputAll output chars aux

section Uniform

variable {program other : ∀ σ : Type, (Byte → σ → σ) → σ → Except Fault σ}

theorem uniform_congr (same : ∀ σ output aux, program σ output aux = other σ output aux)
    (uniform : Uniform other) : Uniform program := by
  obtain ⟨chars, printed⟩ := uniform
  exact ⟨chars, fun σ output aux => (same σ output aux).trans (printed σ output aux)⟩

theorem uniform_error (fault : Fault) : Uniform fun _ _ _ => .error fault :=
  ⟨.error fault, fun _ _ _ => rfl⟩

theorem uniform_ok (chars : List Byte) : Uniform fun _ output aux => .ok (outputAll output chars aux) :=
  ⟨.ok chars, fun _ _ _ => rfl⟩

theorem uniform_bind (first : Uniform program) (second : Uniform other) :
    Uniform fun σ output aux => program σ output aux >>= other σ output := by
  obtain ⟨front, began⟩ := first
  obtain ⟨back, ended⟩ := second
  cases front with
  | error fault =>
      refine ⟨.error fault, ?_⟩
      intro σ output aux
      dsimp only
      rw [began]
      rfl
  | ok front =>
      refine ⟨back.map fun back => front ++ back, ?_⟩
      intro σ output aux
      dsimp only
      rw [began]
      change other σ output (outputAll output front aux) = _
      rw [ended]
      cases back with
      | error fault => rfl
      | ok back => exact congrArg Except.ok (output_all_append front back).symm

end Uniform

/-- A conversion puts out its text, or the message that there is none. -/
theorem conversion_uniform {memory : Memory} {fuel : Nat} (ch : Byte) (c : Conversion)
    (left : VaList) {format : List Byte}
    (ih : ∀ format args, Uniform fun _ output => vprintf memory output fuel format args) :
    Uniform fun _ output aux =>
      convert memory output (vprintf memory output fuel) ch c left aux >>= fun done =>
        vprintf memory output fuel format done.1 done.2 := by
  cases convert_text memory ch c left with
  | inl printed =>
      obtain ⟨args, chars, converted⟩ := printed
      apply uniform_congr _ (uniform_bind (uniform_ok chars) (ih format args))
      intro σ output aux
      rw [converted]
      rfl
  | inr failed =>
      obtain ⟨message, _, converted⟩ := failed
      apply uniform_congr _ (uniform_bind (ih message fun _ => ch.signExtend 32) (ih format left))
      intro σ output aux
      rw [converted]
      cases vprintf memory output fuel message (fun _ => ch.signExtend 32) aux with
      | error fault => rfl
      | ok after => rfl

/-- What is put out does not depend on the callback. -/
theorem vprintf_uniform (memory : Memory) (fuel : Nat) (format : List Byte) (args : VaList) :
    Uniform fun _ output => vprintf memory output fuel format args := by
  induction fuel generalizing format args with
  | zero => exact uniform_error .endless
  | succ fuel ih =>
      cases format with
      | nil => exact uniform_error .overrun
      | cons ch format =>
          by_cases nul : ch = 0
          · subst nul
            exact uniform_ok []
          · by_cases plain : ch ≠ char '%'
            · exact uniform_congr (fun _ _ _ => vprintf_plain nul plain)
                (uniform_bind (uniform_ok [ch]) (ih format args))
            · rw [not_not.mp plain]
              cases format with
              | nil => exact uniform_error .overrun
              | cons next rest =>
                  by_cases percent : next = char '%'
                  · subst percent
                    exact uniform_bind (uniform_ok [char '%']) (ih rest args)
                  · cases parsed : parseConversion (next :: rest) args with
                    | error fault =>
                        exact uniform_congr (fun _ _ _ => vprintf_unparsed percent parsed)
                          (uniform_error fault)
                    | ok result =>
                        obtain ⟨c, format, left⟩ := result
                        cases format with
                        | nil =>
                            exact uniform_congr (fun _ _ _ => vprintf_cut percent parsed)
                              (uniform_error .overrun)
                        | cons last format =>
                            exact uniform_congr (fun _ _ _ => vprintf_parsed percent parsed)
                              (conversion_uniform last c left ih)

/-- Every callback gets the characters that are collected. -/
theorem vprintf_output {memory : Memory} {fuel : Nat} {format chars : List Byte} {args : VaList}
    (collected : vprintf memory collect fuel format args [] = .ok chars) {σ : Type}
    (output : Byte → σ → σ) (aux : σ) :
    vprintf memory output fuel format args aux = .ok (outputAll output chars aux) := by
  obtain ⟨all, printed⟩ := vprintf_uniform memory fuel format args
  dsimp only at printed
  rw [printed] at collected ⊢
  cases all with
  | error fault => cases collected
  | ok all =>
      have same : outputAll collect all [] = chars := Except.ok.inj collected
      rw [collect_all, List.nil_append] at same
      rw [same]
      rfl

/-! ## The beginning of the output -/

theorem update_overwrite {buffer : Nat → Byte} {place : Nat} {ch : Byte} :
    Function.update buffer place ch = overwrite buffer place [ch] := by
  funext other
  by_cases here : other = place
  · rw [here, Function.update_self]
    exact (@overwrite_inside _ buffer place [ch] 0 Nat.one_pos).symm
  · rw [Function.update_of_ne here, overwrite_outside]
    rw [List.length_singleton]
    omega

section Helper

variable {aux : Aux}

/-- What is stored of some more characters, as long as their number does not wrap. -/
theorem helper_stores (chars : List Byte) (small : aux.length.toNat + chars.length < 2 ^ 31) :
    outputAll vsnprintfHelper chars aux =
      { aux with
        buffer := overwrite aux.buffer aux.p
          (chars.take (aux.maxLength.toInt - aux.length.toNat).toNat)
        p := aux.p + min chars.length (aux.maxLength.toInt - aux.length.toNat).toNat
        length := aux.length + BitVec.ofNat 32 chars.length } := by
  induction chars generalizing aux with
  | nil =>
      rw [outputAll, List.take_nil, overwrite_nil, List.length_nil, Nat.zero_min, Nat.add_zero]
      have zero : aux.length + BitVec.ofNat 32 0 = aux.length := BitVec.add_zero _
      rw [zero]
  | cons ch rest ih =>
      rw [List.length_cons] at small
      have now : aux.length.toInt = aux.length.toNat := BitVec.toInt_eq_toNat_of_lt (by omega)
      have next : (aux.length + 1).toNat = aux.length.toNat + 1 := by
        have one : (1 : Word).toNat = 1 := rfl
        rw [BitVec.toNat_add, one]
        omega
      have total : aux.length + 1 + BitVec.ofNat 32 rest.length =
          aux.length + BitVec.ofNat 32 (rest.length + 1) := by
        rw [Nat.add_comm, BitVec.ofNat_add, BitVec.add_assoc]
        rfl
      rw [outputAll, List.length_cons]
      by_cases room : aux.length.toInt < aux.maxLength.toInt
      · have count : (aux.maxLength.toInt - aux.length.toNat).toNat =
            (aux.maxLength.toInt - (aux.length.toNat + 1 : Nat)).toNat + 1 := by omega
        have stored := @ih (vsnprintfHelper ch aux) (by
          unfold vsnprintfHelper
          rw [if_pos room]
          change (aux.length + 1).toNat + _ < _
          omega)
        rw [stored]
        unfold vsnprintfHelper
        simp only [if_pos room, next, total, count, List.take_succ_cons]
        have first := @update_overwrite aux.buffer aux.p ch
        have joined := @overwrite_append _ aux.buffer aux.p [ch]
          (rest.take (aux.maxLength.toInt - (aux.length.toNat + 1 : Nat)).toNat)
        rw [List.length_singleton, List.singleton_append] at joined
        rw [first, joined, Nat.add_assoc, Nat.add_comm 1, Nat.add_min_add_right]
      · have count : (aux.maxLength.toInt - aux.length.toNat).toNat = 0 := by omega
        have later : (aux.maxLength.toInt - (aux.length.toNat + 1 : Nat)).toNat = 0 := by omega
        have stored := @ih (vsnprintfHelper ch aux) (by
          unfold vsnprintfHelper
          rw [if_neg room]
          change (aux.length + 1).toNat + _ < _
          omega)
        rw [stored]
        unfold vsnprintfHelper
        simp only [if_neg room, next, total, count, later, List.take_zero, Nat.min_zero]

end Helper

/-- The buffer with the beginning of the characters and a terminator. -/
def truncated (buffer : Nat → Byte) (bufSize : Word) (chars : List Byte) : Nat → Byte :=
  if bufSize = 0 then buffer
  else overwrite buffer 0 (chars.take (bufSize.toNat - 1) ++ [0])

/-- `vsnprintf` stores as much as there is room for and returns the number of all characters. -/
def StoresTruncated (bufSize : Word) (memory : Memory) (fuel : Nat) (format : List Byte)
    (args : VaList) (chars : List Byte) : Prop :=
  ∀ buffer : Nat → Byte, ∃ after result,
    vsnprintf memory fuel buffer bufSize format args = .ok (after, result) ∧
      after = truncated buffer bufSize chars ∧ result.toInt = chars.length

section Truncation

variable {memory : Memory} {fuel : Nat} {format chars : List Byte} {args : VaList}
  {bufSize : Word}

/-- The number of characters that may be stored. -/
def maxLength (bufSize : Word) : Word := if bufSize > 0 then bufSize - 1 else 0

theorem max_length_small (fits : bufSize.toNat ≤ 2 ^ 31) :
    (maxLength bufSize).toInt = (bufSize.toNat - 1 : Nat) := by
  have one : (1 : Word).toNat = 1 := rfl
  unfold maxLength
  split
  · next positive =>
    have nonzero : 0 < bufSize.toNat := positive
    have value : (bufSize - 1).toNat = bufSize.toNat - 1 := by
      rw [BitVec.toNat_sub_of_le (by rw [BitVec.le_def, one]; exact nonzero), one]
    rw [BitVec.toInt_eq_toNat_of_lt (by omega), value]
  · next zero =>
    have none_ : bufSize.toNat = 0 := Nat.eq_zero_of_not_pos zero
    rw [none_]
    rfl

theorem max_length_large (large : 2 ^ 31 < bufSize.toNat) : (maxLength bufSize).toInt < 0 := by
  have one : (1 : Word).toNat = 1 := rfl
  have bound := bufSize.isLt
  have positive : bufSize > 0 := by
    rw [gt_iff_lt, BitVec.lt_def]
    exact Nat.lt_of_le_of_lt (Nat.zero_le _) large
  have value : (bufSize - 1).toNat = bufSize.toNat - 1 := by
    rw [BitVec.toNat_sub_of_le (by rw [BitVec.le_def, one]; omega), one]
  unfold maxLength
  rw [if_pos positive, BitVec.toInt_eq_toNat_cond, value, if_neg (by omega)]
  omega

/-- What `vsnprintf` does with a number of characters that does not wrap. -/
theorem vsnprintf_ok (collected : vprintf memory collect fuel format args [] = .ok chars)
    (few : chars.length < 2 ^ 31) (buffer : Nat → Byte) :
    vsnprintf memory fuel buffer bufSize format args =
      .ok (if bufSize > 0 then
          overwrite buffer 0 (chars.take (maxLength bufSize).toInt.toNat ++ [0])
        else overwrite buffer 0 (chars.take (maxLength bufSize).toInt.toNat),
        BitVec.ofNat 32 chars.length) := by
  have stored := @helper_stores ⟨buffer, 0, 0, maxLength bufSize⟩ chars (by
    change 0 + chars.length < 2 ^ 31
    omega)
  have zero : ((0 : Word).toNat : Int) = 0 := rfl
  have start : (0 : Word) + BitVec.ofNat 32 chars.length = BitVec.ofNat 32 chars.length :=
    BitVec.zero_add _
  simp only [zero, Int.sub_zero, start, Nat.zero_add] at stored
  have joined := @overwrite_append _ buffer 0 (chars.take (maxLength bufSize).toInt.toNat) [0]
  rw [Nat.zero_add, List.length_take, Nat.min_comm] at joined
  unfold vsnprintf
  rw [vprintf_output collected vsnprintfHelper]
  change Except.ok (if bufSize > 0 then Function.update
      (outputAll vsnprintfHelper chars ⟨buffer, 0, 0, maxLength bufSize⟩).buffer
      (outputAll vsnprintfHelper chars ⟨buffer, 0, 0, maxLength bufSize⟩).p 0
    else (outputAll vsnprintfHelper chars ⟨buffer, 0, 0, maxLength bufSize⟩).buffer,
    (outputAll vsnprintfHelper chars ⟨buffer, 0, 0, maxLength bufSize⟩).length) = _
  rw [stored]
  simp only [update_overwrite, joined]

/-- The limit of the buffer and the number returned are right as long as both are numbers of type
`int`, and for a larger buffer when there is nothing to store. -/
theorem stores_truncated (collected : vprintf memory collect fuel format args [] = .ok chars) :
    StoresTruncated bufSize memory fuel format args chars ↔
      chars.length < 2 ^ 31 ∧ (bufSize.toNat ≤ 2 ^ 31 ∨ chars = []) := by
  constructor
  · intro stores
    have few : chars.length < 2 ^ 31 := by
      obtain ⟨after, result, ran, _, counted⟩ := stores fun _ => 0
      have most := @BitVec.toInt_lt 32 result
      rw [counted] at most
      omega
    refine ⟨few, ?_⟩
    by_contra neither
    rw [not_or] at neither
    have large : 2 ^ 31 < bufSize.toNat := Nat.not_le.mp neither.1
    have limit := max_length_large large
    have positive : bufSize > 0 := by
      rw [gt_iff_lt, BitVec.lt_def]
      exact Nat.lt_of_le_of_lt (Nat.zero_le _) large
    have some_ := List.length_pos_of_ne_nil neither.2
    obtain ⟨after, result, ran, asked, _⟩ := stores fun _ => 1
    rw [vsnprintf_ok collected few, if_pos positive, show (maxLength bufSize).toInt.toNat = 0 by
      omega, List.take_zero, List.nil_append] at ran
    cases ran
    have nonzero : bufSize ≠ 0 := by
      intro zero
      rw [zero] at large
      exact absurd large (by decide)
    -- behind the characters there is no terminator
    have here := congrFun asked chars.length
    unfold truncated at here
    rw [if_neg nonzero, overwrite_outside (by rw [List.length_singleton]; omega),
      List.take_of_length_le (by omega)] at here
    have last := @overwrite_inside _ (fun _ => (1 : Byte)) 0 (chars ++ [0]) chars.length (by
      rw [List.length_append, List.length_singleton]
      omega)
    rw [Nat.zero_add, List.getElem_append_right (Nat.le_refl _)] at last
    simp only [Nat.sub_self, List.getElem_singleton] at last
    rw [last] at here
    exact absurd here (by decide)
  · intro ⟨few, limit⟩ buffer
    refine ⟨_, _, vsnprintf_ok collected few buffer, ?_, ?_⟩
    · unfold truncated
      by_cases empty : bufSize = 0
      · rw [if_pos empty, if_neg (by rw [empty]; decide), empty]
        change overwrite buffer 0 (chars.take 0) = buffer
        rw [List.take_zero, overwrite_nil]
      · have positive : bufSize > 0 := by
          rw [gt_iff_lt, BitVec.lt_def]
          apply Nat.pos_of_ne_zero
          intro zero
          exact empty (BitVec.eq_of_toNat_eq zero)
        rw [if_neg empty, if_pos positive]
        cases limit with
        | inl fits =>
            rw [max_length_small fits]
            rfl
        | inr none_ => rw [none_, List.take_nil, List.take_nil]
    · have value : (BitVec.ofNat 32 chars.length).toNat = chars.length := by
        rw [BitVec.toNat_ofNat]
        exact Nat.mod_eq_of_lt (by omega)
      rw [BitVec.toInt_eq_toNat_of_lt (by omega), value]

end Truncation

end UtSystems.Libc.BoundedOutput
