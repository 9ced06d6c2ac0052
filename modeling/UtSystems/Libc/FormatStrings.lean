import UtSystems.Lib.Effects
import UtSystems.Libc.IntegerFormat

/-!
# Formats and their ends

How far `__vprintf` reads. A conversion that the end of the format cuts off is taken to end with
the terminator, and the loop then goes on behind it.
-/

namespace UtSystems.Libc.FormatStrings

open Lib.Bytes Lib.AddressRanges
open Lib.Effects (except_bind_ok)
open Libc.Stdio Libc.IntegerFormat

set_option autoImplicit false

/-! ## The parts of a specification -/

def isFlag (c : Byte) : Bool := (flagOf c noFlags).isSome

/-- Behind a number or `*`. -/
def skipNumber : List Byte → List Byte
  | [] => []
  | c :: rest => if c = char '*' then rest else (c :: rest).dropWhile isDigit

def skipPrecision : List Byte → List Byte
  | [] => []
  | c :: rest => if c = char '.' then skipNumber rest else c :: rest

def skipDoubled (letter : Byte) : List Byte → List Byte
  | [] => []
  | c :: rest => if c = letter then rest else c :: rest

def skipType : List Byte → List Byte
  | [] => []
  | c :: rest =>
      if c = char 'h' then skipDoubled (char 'h') rest
      else if c = char 'j' then rest
      else if c = char 'l' then skipDoubled (char 'l') rest
      else if c = char 't' then rest
      else if c = char 'z' then rest
      else c :: rest

/-- What is left behind the flags, width, precision and type of a conversion. -/
def skipSpecification (text : List Byte) : List Byte :=
  skipType (skipPrecision (skipNumber (text.dropWhile isFlag)))

/-- No conversion of the text is cut off by its end. -/
inductive Complete : List Byte → Prop
  | nil : Complete []
  | plain {c : Byte} {rest : List Byte} : c ≠ char '%' → Complete rest → Complete (c :: rest)
  | percent {rest : List Byte} : Complete rest → Complete (char '%' :: char '%' :: rest)
  | conversion {next ch : Byte} {rest after : List Byte} : next ≠ char '%' →
      skipSpecification (next :: rest) = ch :: after → Complete after →
      Complete (char '%' :: next :: rest)

section Parsing

variable {args : VaList}

theorem flag_of_is_some (c : Byte) (flags : Flags) : (flagOf c flags).isSome = isFlag c := by
  unfold isFlag flagOf
  repeat' split
  all_goals rfl

theorem parse_flags_ok (text : List Byte) (flags : Flags) :
    ∃ parsed, parseFlags (text ++ [0]) flags = .ok (parsed, text.dropWhile isFlag ++ [0]) := by
  induction text generalizing flags with
  | nil => exact ⟨flags, rfl⟩
  | cons c rest ih =>
      rw [List.cons_append, parseFlags, List.dropWhile_cons]
      have flag := flag_of_is_some c flags
      cases found : flagOf c flags with
      | none =>
          rw [found] at flag
          rw [← flag]
          exact ⟨flags, rfl⟩
      | some next =>
          rw [found] at flag
          rw [← flag]
          exact ih next

theorem parse_digits_ok (text : List Byte) (value : Word) :
    ∃ parsed, parseDigits (text ++ [0]) value = .ok (parsed, text.dropWhile isDigit ++ [0]) := by
  induction text generalizing value with
  | nil => exact ⟨value, rfl⟩
  | cons c rest ih =>
      rw [List.cons_append, parseDigits, List.dropWhile_cons]
      cases isDigit c with
      | false => exact ⟨value, rfl⟩
      | true => exact ih _

theorem parse_number_ok (text : List Byte) (args : VaList) :
    ∃ parsed left, parseNumber (text ++ [0]) args = .ok (parsed, skipNumber text ++ [0], left) := by
  cases text with
  | nil => exact ⟨0, args, rfl⟩
  | cons c rest =>
      rw [List.cons_append, parseNumber, skipNumber]
      by_cases star : c = char '*'
      · rw [if_pos star, if_pos star]
        exact ⟨_, _, rfl⟩
      · obtain ⟨parsed, digits⟩ := parse_digits_ok (c :: rest) 0
        rw [List.cons_append] at digits
        rw [if_neg star, if_neg star, digits]
        exact ⟨_, _, rfl⟩

theorem parse_precision_ok (text : List Byte) (args : VaList) :
    ∃ parsed left,
      parsePrecision (text ++ [0]) args = .ok (parsed, skipPrecision text ++ [0], left) := by
  cases text with
  | nil => exact ⟨-1, args, rfl⟩
  | cons c rest =>
      rw [List.cons_append, parsePrecision, skipPrecision]
      by_cases point : c = char '.'
      · obtain ⟨parsed, left, number⟩ := parse_number_ok rest args
        rw [if_pos point, if_pos point, number]
        exact ⟨_, _, rfl⟩
      · rw [if_neg point, if_neg point]
        exact ⟨_, _, rfl⟩

theorem parse_doubled_ok {letter : Byte} (single double : ArgType) (other : letter ≠ 0)
    (text : List Byte) :
    ∃ parsed, parseDoubled letter single double (text ++ [0]) =
      .ok (parsed, skipDoubled letter text ++ [0]) := by
  cases text with
  | nil => exact ⟨single, if_neg (Ne.symm other)⟩
  | cons c rest =>
      rw [List.cons_append, parseDoubled, skipDoubled]
      split
      · exact ⟨_, rfl⟩
      · exact ⟨_, rfl⟩

theorem parse_type_ok (text : List Byte) :
    ∃ parsed, parseType (text ++ [0]) = .ok (parsed, skipType text ++ [0]) := by
  cases text with
  | nil => exact ⟨.int, rfl⟩
  | cons c rest =>
      rw [List.cons_append, parseType, skipType]
      repeat' split
      · exact parse_doubled_ok _ _ (by decide) rest
      · exact ⟨_, rfl⟩
      · exact parse_doubled_ok _ _ (by decide) rest
      · exact ⟨_, rfl⟩
      · exact ⟨_, rfl⟩
      · exact ⟨_, rfl⟩

/-- `parse_conversion` stops before the terminator or on it. -/
theorem parse_conversion_ok (text : List Byte) (args : VaList) :
    ∃ c left, parseConversion (text ++ [0]) args = .ok (c, skipSpecification text ++ [0], left) := by
  obtain ⟨flags, first⟩ := parse_flags_ok text noFlags
  obtain ⟨width, behind, second⟩ := parse_number_ok (text.dropWhile isFlag) args
  obtain ⟨precision, left, third⟩ :=
    parse_precision_ok (skipNumber (text.dropWhile isFlag)) behind
  obtain ⟨type, fourth⟩ := parse_type_ok (skipPrecision (skipNumber (text.dropWhile isFlag)))
  unfold parseConversion skipSpecification
  by_cases negative : width.toInt < 0
  · simp only [bind, Except.bind, first, second, negative, if_true, third, fourth]
    exact ⟨_, _, rfl⟩
  · simp only [bind, Except.bind, first, second, negative, if_false, third, fourth]
    exact ⟨_, _, rfl⟩

end Parsing

/-! ## Conversions put out text -/

section Conversions

variable {memory : Memory} {fuel : Nat}

theorem unsigned_base_known {ch : Byte} {b : IntegerBase} (found : unsignedBase ch = some b) :
    b ∈ bases := by
  unfold unsignedBase at found
  unfold bases
  repeat' split at found
  all_goals first
    | cases found; simp
    | cases found

theorem format_string_text (string : Nat → Byte) (length : Word) (c : Conversion) :
    ∃ chars : List Byte, ∀ {σ : Type} (output : Byte → σ → σ) (aux : σ),
      formatString output string length c aux = outputAll output chars aux := by
  refine ⟨(if c.width.toInt > length.toInt ∧ ¬c.flags.minus then
      List.replicate (c.width - length).toNat (char ' ') else []) ++
    ((List.range length.toInt.toNat).map string ++
      if c.width.toInt > length.toInt ∧ c.flags.minus then
        List.replicate (c.width - length).toNat (char ' ') else []), ?_⟩
  intro σ output aux
  unfold formatString
  rw [output_all_append, output_all_append]
  simp only [output_dup_all]
  split
  · split <;> rfl
  · split <;> rfl

/-- What is printed for a conversion, or the message that there is none. -/
theorem convert_text (memory : Memory) (ch : Byte) (c : Conversion) (args : VaList) :
    (∃ left chars, ∀ {σ : Type} (output : Byte → σ → σ)
      (printf : List Byte → VaList → σ → Except Fault σ) (aux : σ),
      convert memory output printf ch c args aux = .ok (left, outputAll output chars aux)) ∨
    ∃ message, (message = noKernel ∨ message = noConversion) ∧
      ∀ {σ : Type} (output : Byte → σ → σ) (printf : List Byte → VaList → σ → Except Fault σ)
        (aux : σ), convert memory output printf ch c args aux =
          (printf message (fun _ => ch.signExtend 32) aux).map fun aux => (args, aux) := by
  by_cases signed : ch = char 'd' ∨ ch = char 'i'
  · refine .inl ⟨(signedArg args c.type).2, integerText
      (if (signedArg args c.type).1.toInt < 0 then -(signedArg args c.type).1
        else (signedArg args c.type).1).toNat true ((signedArg args c.type).1.toInt < 0) baseD c, ?_⟩
    intro σ output printf aux
    unfold convert
    rw [if_pos signed]
    simp only [format_integer_text (show baseD ∈ bases from List.mem_cons_self)]
    rfl
  · cases found : unsignedBase ch with
    | some b =>
        refine .inl ⟨(unsignedArg args c.type).2,
          integerText (unsignedArg args c.type).1.toNat false false b c, ?_⟩
        intro σ output printf aux
        unfold convert
        rw [if_neg signed, found]
        simp only [format_integer_text (unsigned_base_known found)]
        rfl
    | none =>
        by_cases character : ch = char 'c'
        · obtain ⟨chars, printed⟩ := format_string_text (fun _ => (args 0).setWidth 8) 1 c
          refine .inl ⟨dropArgs args 1, chars, ?_⟩
          intro σ output printf aux
          unfold convert
          rw [if_neg signed, found]
          simp only [if_pos character, printed]
        · by_cases string : ch = char 's'
          · obtain ⟨chars, printed⟩ := format_string_text (stringAt memory (args 0))
              (BitVec.ofNat 32 (strnlen (stringAt memory (args 0)) c.precision.toNat 0)) c
            refine .inl ⟨dropArgs args 1, chars, ?_⟩
            intro σ output printf aux
            unfold convert
            rw [if_neg signed, found]
            simp only [if_neg character, if_pos string, printed]
          · by_cases pointer : ch = char 'p'
            · refine .inl ⟨dropArgs args 1, integerText ((args 0).setWidth 64).toNat false false
                baseLowX { c with flags := { noFlags with pound := true } }, ?_⟩
              intro σ output printf aux
              unfold convert
              rw [if_neg signed, found]
              simp only [if_neg character, if_neg string, if_pos pointer,
                format_integer_text (show baseLowX ∈ bases by simp [bases])]
              rfl
            · refine .inr ⟨if (text "feEgGn").contains ch then noKernel else noConversion, ?_, ?_⟩
              · split
                · exact .inl rfl
                · exact .inr rfl
              · intro σ output printf aux
                unfold convert
                rw [if_neg signed, found]
                simp only [if_neg character, if_neg string, if_neg pointer]
                cases printf (if (text "feEgGn").contains ch then noKernel else noConversion)
                  (fun _ => ch.signExtend 32) aux with
                | error fault => rfl
                | ok after => rfl

/-- The two messages are formats that are printed. -/
theorem message_ok {σ : Type} {output : Byte → σ → σ} {message : List Byte}
    (known : message = noKernel ∨ message = noConversion) (enough : 24 ≤ fuel) (args : VaList)
    (aux : σ) : ∃ after, vprintf memory output fuel message args aux = .ok after := by
  obtain ⟨more, rfl⟩ := Nat.exists_eq_add_of_le' enough
  cases known with
  | inl kernel =>
      rw [kernel]
      exact ⟨_, rfl⟩
  | inr conversion =>
      rw [conversion]
      exact ⟨_, rfl⟩

theorem convert_ok {σ : Type} {output : Byte → σ → σ} (enough : 24 ≤ fuel) (ch : Byte)
    (c : Conversion) (args : VaList) (aux : σ) :
    ∃ left after, convert memory output (vprintf memory output fuel) ch c args aux =
      .ok (left, after) := by
  cases convert_text memory ch c args with
  | inl printed =>
      obtain ⟨left, chars, printed⟩ := printed
      exact ⟨left, _, printed output _ aux⟩
  | inr failed =>
      obtain ⟨message, known, failed⟩ := failed
      obtain ⟨after, ran⟩ :=
        @message_ok memory fuel σ output message known enough (fun _ => ch.signExtend 32) aux
      refine ⟨args, after, ?_⟩
      rw [failed, ran]
      rfl

end Conversions

/-! ## The end of the format -/

section Ends

variable {σ : Type} {memory : Memory} {output : Byte → σ → σ} {fuel : Nat} {text : List Byte}

theorem skip_number_suffix (text : List Byte) : skipNumber text <:+ text := by
  cases text with
  | nil => exact List.suffix_refl _
  | cons c rest =>
      rw [skipNumber]
      split
      · exact List.suffix_cons c rest
      · exact List.dropWhile_suffix _

theorem skip_precision_suffix (text : List Byte) : skipPrecision text <:+ text := by
  cases text with
  | nil => exact List.suffix_refl _
  | cons c rest =>
      rw [skipPrecision]
      split
      · exact (skip_number_suffix rest).trans (List.suffix_cons c rest)
      · exact List.suffix_refl _

theorem skip_doubled_suffix (letter : Byte) (text : List Byte) :
    skipDoubled letter text <:+ text := by
  cases text with
  | nil => exact List.suffix_refl _
  | cons c rest =>
      rw [skipDoubled]
      split
      · exact List.suffix_cons c rest
      · exact List.suffix_refl _

theorem skip_type_suffix (text : List Byte) : skipType text <:+ text := by
  cases text with
  | nil => exact List.suffix_refl _
  | cons c rest =>
      rw [skipType]
      repeat' split
      · exact (skip_doubled_suffix _ rest).trans (List.suffix_cons c rest)
      · exact List.suffix_cons c rest
      · exact (skip_doubled_suffix _ rest).trans (List.suffix_cons c rest)
      · exact List.suffix_cons c rest
      · exact List.suffix_cons c rest
      · exact List.suffix_refl _

theorem skip_specification_suffix (text : List Byte) : skipSpecification text <:+ text := by
  unfold skipSpecification
  exact ((skip_type_suffix _).trans (skip_precision_suffix _)).trans
    ((skip_number_suffix _).trans (List.dropWhile_suffix _))

/-- With no conversion cut off, the loop ends at the terminator. -/
theorem vprintf_ends (complete : Complete text) (noNul : (0 : Byte) ∉ text)
    (enough : text.length + 25 ≤ fuel) (args : VaList) (aux : σ) :
    ∃ after, vprintf memory output fuel (text ++ [0]) args aux = .ok after := by
  induction complete generalizing fuel args aux with
  | nil =>
      obtain ⟨more, rfl⟩ := Nat.exists_eq_add_of_le' enough
      exact ⟨aux, rfl⟩
  | @plain c rest other _ ih =>
      rw [List.mem_cons, not_or] at noNul
      rw [List.length_cons] at enough
      obtain ⟨fuel, rfl⟩ : ∃ more, fuel = more + 1 := ⟨fuel - 1, by omega⟩
      rw [List.cons_append, vprintf_plain (Ne.symm noNul.1) other]
      exact ih noNul.2 (by omega) args _
  | @percent rest _ ih =>
      rw [List.mem_cons, List.mem_cons, not_or, not_or] at noNul
      rw [List.length_cons, List.length_cons] at enough
      obtain ⟨fuel, rfl⟩ : ∃ more, fuel = more + 1 := ⟨fuel - 1, by omega⟩
      rw [List.cons_append, List.cons_append, vprintf_percent]
      exact ih noNul.2.2 (by omega) args _
  | @conversion next ch rest after other skipped _ ih =>
      have behind := skip_specification_suffix (next :: rest)
      rw [skipped] at behind
      have fewer := behind.length_le
      rw [List.length_cons] at fewer
      rw [List.length_cons] at enough
      obtain ⟨fuel, rfl⟩ : ∃ more, fuel = more + 1 := ⟨fuel - 1, by omega⟩
      obtain ⟨c, left, parsed⟩ := parse_conversion_ok (next :: rest) args
      rw [skipped] at parsed
      obtain ⟨last, middle, converted⟩ :=
        @convert_ok memory fuel σ output (by omega) ch c left aux
      rw [List.cons_append] at parsed
      rw [List.cons_append, List.cons_append, vprintf_parsed other parsed, converted]
      apply ih _ (by omega) last middle
      intro nul
      exact noNul (List.mem_cons_of_mem _ (behind.mem (List.mem_cons_of_mem ch nul)))

theorem vprintf_past_end (fuel : Nat) (args : VaList) (aux after : σ) :
    vprintf memory output fuel [] args aux ≠ .ok after := by
  cases fuel with
  | zero =>
      intro ran
      cases ran
  | succ fuel =>
      intro ran
      cases ran

/-- Where a conversion is cut off, the loop goes on past the terminator. -/
theorem complete_of_ends (noNul : (0 : Byte) ∉ text) {args : VaList} {aux after : σ}
    (ran : vprintf memory output fuel (text ++ [0]) args aux = .ok after) : Complete text := by
  induction fuel generalizing text args aux with
  | zero => cases ran
  | succ fuel ih =>
      cases text with
      | nil => exact .nil
      | cons c rest =>
          rw [List.mem_cons, not_or] at noNul
          rw [List.cons_append] at ran
          by_cases other : c ≠ char '%'
          · rw [vprintf_plain (Ne.symm noNul.1) other] at ran
            exact .plain other (ih noNul.2 ran)
          · rw [not_not.mp other] at ran ⊢
            cases rest with
            | nil =>
                obtain ⟨record, left, parsed⟩ := parse_conversion_ok [] args
                rw [List.nil_append, vprintf_parsed (by decide) parsed] at ran
                obtain ⟨_, _, ran⟩ := except_bind_ok ran
                exact absurd ran (vprintf_past_end _ _ _ _)
            | cons next rest =>
                rw [List.cons_append] at ran
                by_cases percent : next = char '%'
                · rw [percent, vprintf_percent] at ran
                  rw [percent]
                  rw [List.mem_cons, not_or] at noNul
                  exact .percent (ih noNul.2.2 ran)
                · obtain ⟨record, left, parsed⟩ := parse_conversion_ok (next :: rest) args
                  rw [List.cons_append] at parsed
                  cases skipped : skipSpecification (next :: rest) with
                  | nil =>
                      rw [skipped] at parsed
                      rw [vprintf_parsed percent parsed] at ran
                      obtain ⟨_, _, ran⟩ := except_bind_ok ran
                      exact absurd ran (vprintf_past_end _ _ _ _)
                  | cons ch later =>
                      rw [skipped] at parsed
                      rw [vprintf_parsed percent parsed] at ran
                      obtain ⟨_, _, ran⟩ := except_bind_ok ran
                      have behind := skip_specification_suffix (next :: rest)
                      rw [skipped] at behind
                      apply Complete.conversion percent skipped
                      apply ih _ ran
                      intro nul
                      exact noNul.2 (behind.mem (List.mem_cons_of_mem ch nul))

end Ends

/-- `__vprintf` ends, and reads nothing past the terminator: enough rounds give a result. -/
def StaysInside (text : List Byte) : Prop :=
  ∀ (σ : Type) (memory : Memory) (output : Byte → σ → σ) (args : VaList) (aux : σ),
    ∀ fuel ≥ text.length + 25, ∃ after, vprintf memory output fuel (text ++ [0]) args aux = .ok after

/-- A format is not left exactly when none of its conversions is cut off by its end, whatever is
printed and wherever it goes. -/
theorem vprintf_stays_inside_iff {text : List Byte} (noNul : (0 : Byte) ∉ text) :
    (StaysInside text ↔ Complete text) ∧
      ∀ (σ : Type) (memory : Memory) (output : Byte → σ → σ) (args : VaList) (aux after : σ)
        (fuel : Nat), vprintf memory output fuel (text ++ [0]) args aux = .ok after →
        Complete text := by
  refine ⟨⟨?_, ?_⟩, ?_⟩
  · intro inside
    obtain ⟨after, ran⟩ := inside Unit (fun _ => 0) (fun _ aux => aux) (fun _ => 0) ()
      (text.length + 25) (Nat.le_refl _)
    exact complete_of_ends noNul ran
  · intro complete σ memory output args aux fuel enough
    exact vprintf_ends complete noNul enough args aux
  · intro σ memory output args aux after fuel ran
    exact complete_of_ends noNul ran

/-- `50%%` is left at its terminator. -/
theorem vprintf_stays_inside_percent :
    (StaysInside (text "50%%") ↔ Complete (text "50%%")) ∧
      ∀ (σ : Type) (memory : Memory) (output : Byte → σ → σ) (args : VaList) (aux after : σ)
        (fuel : Nat), vprintf memory output fuel (text "50%%" ++ [0]) args aux = .ok after →
        Complete (text "50%%") :=
  vprintf_stays_inside_iff (by decide)

/-- A format that is one `%` is left past its terminator. -/
theorem percent_overruns :
    vprintf (fun _ => 0) collect 40 (text "%" ++ [0]) (fun _ => 0) [] = .error .overrun ∧
      ¬StaysInside (text "%") := by
  have overrun : vprintf (fun _ => 0) collect 40 (text "%" ++ [0]) (fun _ => 0) [] =
      .error .overrun := rfl
  refine ⟨overrun, ?_⟩
  intro inside
  obtain ⟨after, ran⟩ := inside (List Byte) (fun _ => 0) collect (fun _ => 0) [] 40 (by decide)
  rw [overrun] at ran
  cases ran

end UtSystems.Libc.FormatStrings
