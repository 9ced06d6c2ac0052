import UtSystems.Lib.Bytes
import UtSystems.Lib.GuardedRun

/-!
# Commands in cmd_pipe of yashd

`yashd_handle_cmd` writes a `sCommandDetail` as it lies in memory, and `cmd_loop` reads it in
another process. A record is longer than `PIPE_BUF`, so its bytes may arrive in pieces; a `read`
returns some of the bytes that are there. `cmd_loop` takes every result but -1 for a record.
-/

namespace UtSystems.Yashd.CommandPipe

open Lib.Bytes Lib.GuardedRun

set_option autoImplicit false

/-- `sizeof(sCommandDetail)` on x86-64: 4 bytes of `isBackground`, 4012 of `jobInfo`, and two of
`sSoloCommandInfo` with 1320 each. -/
def recordSize : Nat := 4 + 4012 + 2 * 1320

/-- Where `cmdMatrix[0].argvSize` is: behind three `bool`, `argv` and `argvExec`. -/
def argvSizeAt : Nat := 4 + 4012 + 1216

structure Record where
  bytes : List Byte
  length : bytes.length = recordSize

/-- `1 < cmdInfo->cmdMatrix[0].argvSize`, on which `run_cmd` executes anything. -/
def executes (cmdInfo : List Byte) : Bool :=
  decide (1 < (readWord (cmdInfo.drop argvSizeAt)).toInt)

/-- `cmdInfo` after a `read` that has returned these bytes; it was zero before. -/
def filled (piece : List Byte) : List Byte :=
  piece ++ List.replicate (recordSize - piece.length) 0

structure Pipe where
  -- by the calls of `yashd_handle_cmd`
  written : List Record
  -- how many of the bytes are in the pipe or read
  arrived : Nat
  read : Nat
  closed : Bool
  -- `O_NONBLOCK` is set
  draining : Bool
  -- what `run_cmd` was called with
  calls : List (List Byte)

def Pipe.init : Pipe :=
  { written := [], arrived := 0, read := 0, closed := false, draining := false, calls := [] }

/-- All the bytes that are written. -/
def Pipe.stream (p : Pipe) : List Byte := p.written.flatMap Record.bytes

def Pipe.piece (p : Pipe) (n : Nat) : List Byte := (p.stream.drop p.read).take n

inductive Action where
  -- `write` of a record has been called
  | write (record : Record)
  | arrive (n : Nat)
  | close
  -- `read` has returned that many bytes
  | read (n : Nat)
  -- `read` has returned 0
  | eof
  -- `read` has returned -1
  | again

def step (p : Pipe) : Action → Option Pipe
  | .write record =>
      if p.arrived = p.stream.length ∧ p.closed = false then
        some { p with written := p.written ++ [record] }
      else none
  | .arrive n =>
      if p.arrived + n ≤ p.stream.length then some { p with arrived := p.arrived + n } else none
  | .close => if p.arrived = p.stream.length then some { p with closed := true } else none
  | .read n =>
      if 0 < n ∧ n ≤ recordSize ∧ p.read + n ≤ p.arrived then
        some { p with
          read := p.read + n, draining := true, calls := p.calls ++ [filled (p.piece n)] }
      else none
  | .eof =>
      if p.closed = true ∧ p.read = p.arrived then
        some { p with draining := true, calls := p.calls ++ [filled []] }
      else none
  | .again =>
      if p.draining = true ∧ p.closed = false ∧ p.read = p.arrived then
        some { p with draining := false }
      else none

/-- How many bytes of the record at hand have been read. -/
def Pipe.offset (p : Pipe) : Nat := p.read % recordSize

/-- How many records have been read in whole or in part. -/
def Pipe.started (p : Pipe) : Nat := (p.read + recordSize - 1) / recordSize

/-- The record in which the next byte lies. -/
def Pipe.record (p : Pipe) : List Byte := (p.stream.drop (p.read - p.offset)).take recordSize

/-- A `read` stays in one record. At its start it takes all that is not zero in it, or neither the
record nor what is read of it executes anything; behind its start it takes nothing that does. -/
def Whole (p : Pipe) : Action → Prop
  | .read n =>
      p.offset + n ≤ recordSize ∧
        if p.offset = 0 then
          filled (p.piece n) = p.record ∨
            executes (filled (p.piece n)) = false ∧ executes p.record = false
        else executes (filled (p.piece n)) = false
  | _ => True

/-- Every `read` returns a record. -/
def Exact : Pipe → Action → Prop
  | _, .read n => n = recordSize
  | _, .eof => False
  | _, _ => True

instance (p : Pipe) (action : Action) : Decidable (Whole p action) := by
  cases action <;> unfold Whole <;> infer_instance

instance (p : Pipe) (action : Action) : Decidable (Exact p action) := by
  cases action <;> unfold Exact <;> infer_instance

/-- The commands that `run_cmd` has executed. -/
def Pipe.ran (p : Pipe) : List (List Byte) := p.calls.filter executes

/-- The commands written in the records that have been read. -/
def Pipe.due (p : Pipe) : List (List Byte) :=
  ((p.written.take p.started).map Record.bytes).filter executes

section Blocks

theorem records_length (records : List Record) :
    (records.flatMap Record.bytes).length = records.length * recordSize := by
  induction records with
  | nil => rw [List.flatMap_nil, List.length_nil, List.length_nil, Nat.zero_mul]
  | cons record records ih =>
      rw [List.flatMap_cons, List.length_append, record.length, ih, List.length_cons, Nat.succ_mul,
        Nat.add_comm]

/-- The `k`-th block of the stream is the `k`-th record. -/
theorem stream_block {records : List Record} {k : Nat} (inside : k < records.length) :
    ((records.flatMap Record.bytes).drop (k * recordSize)).take recordSize =
      (records.get ⟨k, inside⟩).bytes := by
  induction records generalizing k with
  | nil => exact absurd inside (Nat.not_lt_zero k)
  | cons record records ih =>
      rw [List.flatMap_cons]
      cases k with
      | zero =>
          rw [Nat.zero_mul, List.drop_zero, ← record.length, List.take_left]
          rfl
      | succ k =>
          have skip : (k + 1) * recordSize = record.bytes.length + k * recordSize := by
            rw [record.length, Nat.succ_mul, Nat.add_comm]
          rw [skip, List.drop_append, Nat.add_sub_cancel_left, List.drop_eq_nil_of_le
            (Nat.le_add_right _ _), List.nil_append]
          exact ih (Nat.lt_of_succ_lt_succ inside)

end Blocks

structure Kept (p : Pipe) : Prop where
  read : p.read ≤ p.arrived
  arrived : p.arrived ≤ p.stream.length
  ran : p.ran = p.due

section Steps

variable {p next : Pipe}

theorem stream_length : p.stream.length = p.written.length * recordSize := records_length _

theorem started_le (read : p.read ≤ p.stream.length) : p.started ≤ p.written.length := by
  rw [stream_length] at read
  unfold Pipe.started
  unfold recordSize at *
  omega

/-- The record at hand, and how the number of records read goes on. -/
theorem read_within {n : Nat} (positive : 0 < n) (inside : p.offset + n ≤ recordSize)
    (there : p.read + n ≤ p.stream.length) :
    ∃ k, ∃ here : k < p.written.length, p.record = (p.written.get ⟨k, here⟩).bytes ∧
      (p.read + n + recordSize - 1) / recordSize = k + 1 ∧
      p.started = if p.offset = 0 then k else k + 1 := by
  have below : p.read / recordSize < p.written.length := by
    rw [stream_length] at there
    unfold recordSize at *
    omega
  have parts : p.read - p.offset = p.read / recordSize * recordSize := by
    unfold Pipe.offset recordSize
    omega
  refine ⟨p.read / recordSize, below, ?_, ?_, ?_⟩
  · unfold Pipe.record
    rw [parts]
    exact stream_block below
  · unfold Pipe.offset at inside
    unfold recordSize at *
    omega
  · unfold Pipe.started Pipe.offset
    unfold recordSize
    split <;> omega

theorem executes_nothing : executes (filled []) = false := by decide +kernel

/-- A step that reads nothing leaves the records that are due. -/
theorem kept_of_same (kept : Kept p) (more : ∃ records, next.written = p.written ++ records)
    (read : next.read = p.read) (arrived : p.arrived ≤ next.arrived)
    (fits : next.arrived ≤ next.stream.length) (ran : next.ran = p.ran) : Kept next := by
  obtain ⟨records, written⟩ := more
  have started : next.started = p.started := by
    unfold Pipe.started
    rw [read]
  have inside : p.started ≤ p.written.length := started_le (Nat.le_trans kept.read kept.arrived)
  refine ⟨?_, fits, ?_⟩
  · rw [read]
    exact Nat.le_trans kept.read arrived
  · rw [ran, kept.ran, Pipe.due, Pipe.due, started, written, List.take_append_of_le_length inside]

theorem read_kept (kept : Kept p) {n : Nat} (positive : 0 < n) (there : p.read + n ≤ p.arrived)
    (whole : Whole p (.read n)) : Kept { p with
      read := p.read + n, draining := true, calls := p.calls ++ [filled (p.piece n)] } := by
  obtain ⟨inside, content⟩ := whole
  obtain ⟨k, here, isRecord, after, before⟩ :=
    read_within positive inside (Nat.le_trans there kept.arrived)
  refine ⟨there, kept.arrived, ?_⟩
  have ran := kept.ran
  unfold Pipe.ran Pipe.due at *
  dsimp only [Pipe.started]
  rw [after, List.filter_append, ran, before]
  by_cases start : p.offset = 0
  · rw [if_pos start] at content ⊢
    rw [List.take_succ_eq_append_getElem here, List.map_append, List.filter_append]
    congr 1
    rw [isRecord] at content
    rcases content with same | ⟨pieceIdle, recordIdle⟩
    · rw [same]
      rfl
    · have idle : executes (p.written[k].bytes) = false := recordIdle
      rw [List.map_singleton, List.filter_cons_of_neg (by rw [pieceIdle]; exact Bool.false_ne_true),
        List.filter_cons_of_neg (by rw [idle]; exact Bool.false_ne_true)]
  · rw [if_neg start] at content ⊢
    rw [List.filter_cons_of_neg (by rw [content]; exact Bool.false_ne_true), List.filter_nil,
      List.append_nil]

theorem eof_ran {calls : List (List Byte)} :
    (calls ++ [filled []]).filter executes = calls.filter executes := by
  rw [List.filter_append, List.filter_cons_of_neg (by rw [executes_nothing]; exact Bool.false_ne_true),
    List.filter_nil, List.append_nil]

theorem stream_grows (records : List Record) :
    p.stream.length ≤ ({ p with written := p.written ++ records } : Pipe).stream.length := by
  unfold Pipe.stream
  rw [List.flatMap_append, List.length_append]
  exact Nat.le_add_right _ _

theorem step_kept (kept : Kept p) {action : Action} (whole : Whole p action)
    (taken : step p action = some next) : Kept next := by
  cases action with
  | write record =>
      obtain ⟨_, eq⟩ := Option.ite_none_right_eq_some.mp taken
      cases eq
      exact kept_of_same kept ⟨[record], rfl⟩ rfl (Nat.le_refl _)
        (Nat.le_trans kept.arrived (stream_grows [record])) rfl
  | arrive n =>
      obtain ⟨fits, eq⟩ := Option.ite_none_right_eq_some.mp taken
      cases eq
      exact kept_of_same kept ⟨[], (List.append_nil _).symm⟩ rfl (Nat.le_add_right _ _) fits rfl
  | close =>
      obtain ⟨_, eq⟩ := Option.ite_none_right_eq_some.mp taken
      cases eq
      exact kept_of_same kept ⟨[], (List.append_nil _).symm⟩ rfl (Nat.le_refl _) kept.arrived rfl
  | read n =>
      obtain ⟨⟨positive, _, there⟩, eq⟩ := Option.ite_none_right_eq_some.mp taken
      cases eq
      exact read_kept kept positive there whole
  | eof =>
      obtain ⟨_, eq⟩ := Option.ite_none_right_eq_some.mp taken
      cases eq
      exact kept_of_same kept ⟨[], (List.append_nil _).symm⟩ rfl (Nat.le_refl _) kept.arrived eof_ran
  | again =>
      obtain ⟨_, eq⟩ := Option.ite_none_right_eq_some.mp taken
      cases eq
      exact kept_of_same kept ⟨[], (List.append_nil _).symm⟩ rfl (Nat.le_refl _) kept.arrived rfl

end Steps

theorem reaches_kept {p : Pipe} (run : Reaches step Whole Pipe.init p) : Kept p :=
  reaches_invariant Kept ⟨Nat.le_refl _, Nat.le_refl _, rfl⟩
    (fun _ _ _ kept whole taken => step_kept kept whole taken) run

/-- What holds if every `read` returns a record. -/
structure Lockstep (p : Pipe) : Prop where
  arrived : p.read ≤ p.arrived ∧ p.arrived ≤ p.stream.length
  aligned : p.offset = 0
  calls : p.calls = (p.written.take p.started).map Record.bytes

section Lockstep

variable {p next : Pipe}

theorem lockstep_of_same (lockstep : Lockstep p)
    (more : ∃ records, next.written = p.written ++ records) (read : next.read = p.read)
    (arrived : p.arrived ≤ next.arrived) (fits : next.arrived ≤ next.stream.length)
    (calls : next.calls = p.calls) : Lockstep next := by
  obtain ⟨records, written⟩ := more
  have started : next.started = p.started := by
    unfold Pipe.started
    rw [read]
  have inside : p.started ≤ p.written.length :=
    started_le (Nat.le_trans lockstep.arrived.1 lockstep.arrived.2)
  refine ⟨⟨?_, fits⟩, ?_, ?_⟩
  · rw [read]
    exact Nat.le_trans lockstep.arrived.1 arrived
  · unfold Pipe.offset
    rw [read]
    exact lockstep.aligned
  · rw [calls, lockstep.calls, started, written, List.take_append_of_le_length inside]

theorem read_lockstep (lockstep : Lockstep p) (there : p.read + recordSize ≤ p.arrived) :
    Lockstep { p with
      read := p.read + recordSize, draining := true,
      calls := p.calls ++ [filled (p.piece recordSize)] } := by
  obtain ⟨⟨_, arrived⟩, aligned, calls⟩ := lockstep
  obtain ⟨k, here, isRecord, after, before⟩ := @read_within p recordSize (by decide)
    (Nat.le_of_eq (by rw [aligned, Nat.zero_add])) (Nat.le_trans there arrived)
  rw [if_pos aligned] at before
  have piece : p.piece recordSize = p.record := by
    unfold Pipe.piece Pipe.record
    rw [aligned, Nat.sub_zero]
  refine ⟨⟨there, arrived⟩, ?_, ?_⟩
  · unfold Pipe.offset at *
    rw [Nat.add_mod_right]
    exact aligned
  · dsimp only [Pipe.started]
    rw [after, List.take_succ_eq_append_getElem here, List.map_append, calls, before, piece,
      isRecord]
    unfold filled
    rw [Record.length, Nat.sub_self]
    simp

theorem step_lockstep (lockstep : Lockstep p) {action : Action} (exact_ : Exact p action)
    (taken : step p action = some next) : Lockstep next := by
  cases action with
  | write record =>
      obtain ⟨_, eq⟩ := Option.ite_none_right_eq_some.mp taken
      cases eq
      exact lockstep_of_same lockstep ⟨[record], rfl⟩ rfl (Nat.le_refl _)
        (Nat.le_trans lockstep.arrived.2 (stream_grows [record])) rfl
  | arrive n =>
      obtain ⟨fits, eq⟩ := Option.ite_none_right_eq_some.mp taken
      cases eq
      exact lockstep_of_same lockstep ⟨[], (List.append_nil _).symm⟩ rfl (Nat.le_add_right _ _) fits
        rfl
  | close =>
      obtain ⟨_, eq⟩ := Option.ite_none_right_eq_some.mp taken
      cases eq
      exact lockstep_of_same lockstep ⟨[], (List.append_nil _).symm⟩ rfl (Nat.le_refl _)
        lockstep.arrived.2 rfl
  | read n =>
      obtain ⟨⟨_, _, there⟩, eq⟩ := Option.ite_none_right_eq_some.mp taken
      cases eq
      have all : n = recordSize := exact_
      rw [all] at there ⊢
      exact read_lockstep lockstep there
  | eof => exact absurd exact_ not_false
  | again =>
      obtain ⟨_, eq⟩ := Option.ite_none_right_eq_some.mp taken
      cases eq
      exact lockstep_of_same lockstep ⟨[], (List.append_nil _).symm⟩ rfl (Nat.le_refl _)
        lockstep.arrived.2 rfl

theorem reaches_lockstep (run : Reaches step Exact Pipe.init p) : Lockstep p :=
  reaches_invariant Lockstep ⟨⟨Nat.le_refl _, Nat.le_refl _⟩, rfl, rfl⟩
    (fun _ _ _ lockstep exact_ taken => step_lockstep lockstep exact_ taken) run

end Lockstep

theorem started_all {p : Pipe} (all : p.read = p.stream.length) :
    p.written.take p.started = p.written := by
  apply List.take_of_length_le
  rw [stream_length] at all
  unfold Pipe.started
  unfold recordSize at *
  omega

/-- As long as no `read` cuts a record where it matters, `run_cmd` executes the commands of the
records that are read, each once and in order, and nothing at the end of the file; and as long as
every `read` returns a record, it is called with the records and nothing else. -/
theorem commands_run_once (p : Pipe) :
    (Reaches step Whole Pipe.init p →
      p.ran = p.due ∧
      (p.read = p.stream.length → p.ran = (p.written.map Record.bytes).filter executes) ∧
      ∀ next, step p .eof = some next → next.ran = p.ran) ∧
    (Reaches step Exact Pipe.init p →
      p.calls = (p.written.take p.started).map Record.bytes ∧
      (p.read = p.stream.length → p.calls = p.written.map Record.bytes)) := by
  constructor
  · intro run
    have ran := (reaches_kept run).ran
    refine ⟨ran, fun all => ?_, fun next ends => ?_⟩
    · rw [ran, Pipe.due, started_all all]
    · obtain ⟨_, eq⟩ := Option.ite_none_right_eq_some.mp ends
      cases eq
      exact eof_ran
  · intro run
    have calls := (reaches_lockstep run).calls
    refine ⟨calls, fun all => ?_⟩
    rw [calls, started_all all]

/-- A record with one argument for `execvp`: `argvSize` is 2. -/
def oneCommand : Record where
  bytes := List.replicate argvSizeAt 0 ++ [2] ++ List.replicate (recordSize - argvSizeAt - 1) 0
  length := by
    rw [List.length_append, List.length_append, List.length_replicate, List.length_replicate]
    rfl

/-- Its record is written, arrives and is read in two pieces, the first with `n` bytes. -/
def inTwo (n : Nat) : Pipe :=
  { written := [oneCommand], arrived := recordSize, read := recordSize, closed := false
    draining := true
    calls := [filled (oneCommand.bytes.take n),
      filled ((oneCommand.bytes.drop n).take (recordSize - n))] }

theorem one_stream {p : Pipe} (one : p.written = [oneCommand]) : p.stream = oneCommand.bytes := by
  unfold Pipe.stream
  rw [one]
  exact List.append_nil _

theorem reaches_in_two {allowed : Pipe → Action → Prop} {n : Nat} (positive : 0 < n)
    (small : n < recordSize) (others : ∀ p action, (∀ k, action ≠ .read k) → allowed p action)
    (first : ∀ p : Pipe, p.written = [oneCommand] → p.read = 0 → allowed p (.read n))
    (second : ∀ p : Pipe, p.written = [oneCommand] → p.read = n →
      allowed p (.read (recordSize - n))) :
    Reaches step allowed Pipe.init (inTwo n) := by
  let started : Pipe := { Pipe.init with written := [oneCommand] }
  let came : Pipe := { started with arrived := n }
  let readFirst : Pipe :=
    { came with read := n, draining := true, calls := [filled (oneCommand.bytes.take n)] }
  let cameAll : Pipe := { readFirst with arrived := recordSize }
  have length : ∀ p : Pipe, p.written = [oneCommand] → p.stream.length = recordSize := by
    intro p one
    rw [one_stream one, Record.length]
  have writes : step Pipe.init (.write oneCommand) = some started := by
    dsimp only [step]
    exact if_pos ⟨rfl, rfl⟩
  have wrote : Reaches step allowed Pipe.init started :=
    .push .start (others _ (.write oneCommand) (by simp)) writes
  have arrives : step started (.arrive n) = some came := by
    have fits : started.arrived + n ≤ started.stream.length := by
      rw [length started rfl]
      have none_ : started.arrived = 0 := rfl
      omega
    refine (if_pos fits).trans ?_
    have sum : started.arrived + n = n := Nat.zero_add n
    rw [sum]
  have reads : step came (.read n) = some readFirst := by
    have piece : came.piece n = oneCommand.bytes.take n := by
      unfold Pipe.piece
      rw [one_stream rfl]
      rfl
    have fits : came.read + n ≤ came.arrived := Nat.le_of_eq (Nat.zero_add n)
    refine (if_pos ⟨positive, Nat.le_of_lt small, fits⟩).trans ?_
    have sum : came.read + n = n := Nat.zero_add n
    rw [sum, piece]
    rfl
  have arrivesAll : step readFirst (.arrive (recordSize - n)) = some cameAll := by
    have sum : readFirst.arrived + (recordSize - n) = recordSize :=
      Nat.add_sub_of_le (Nat.le_of_lt small)
    refine (if_pos ?_).trans ?_
    · apply Nat.le_of_eq
      rw [sum, length readFirst rfl]
    · rw [sum]
  have readsAll : step cameAll (.read (recordSize - n)) = some (inTwo n) := by
    have piece : cameAll.piece (recordSize - n) =
        (oneCommand.bytes.drop n).take (recordSize - n) := by
      unfold Pipe.piece
      rw [one_stream rfl]
    have sum : cameAll.read + (recordSize - n) = recordSize :=
      Nat.add_sub_of_le (Nat.le_of_lt small)
    refine (if_pos ⟨Nat.sub_pos_of_lt small, Nat.sub_le _ _, Nat.le_of_eq sum⟩).trans ?_
    rw [sum, piece]
    rfl
  have middle := Reaches.push wrote (others _ (.arrive n) (by simp)) arrives
  have afterFirst := Reaches.push middle (first came rfl rfl) reads
  have full := Reaches.push afterFirst (others _ (.arrive (recordSize - n)) (by simp)) arrivesAll
  exact .push full (second cameAll rfl rfl) readsAll

/-- The bytes of a record that are not zero arrive before the others, and `read` returns twice. -/
theorem commands_run_once_tail :
    ∃ p, Reaches step Whole Pipe.init p ∧ p.calls.length = 2 ∧
      p.ran = (p.written.map Record.bytes).filter executes := by
  have zeros : oneCommand.bytes.drop 6000 = List.replicate 656 0 := by
    have front : (List.replicate argvSizeAt 0 ++ [(2 : Byte)]).length = 5233 := by
      rw [List.length_append, List.length_replicate]
      rfl
    dsimp only [oneCommand]
    rw [List.drop_append, List.drop_eq_nil_of_le (by rw [front]; decide), front, List.nil_append,
      List.drop_replicate]
    rfl
  have whole : filled (oneCommand.bytes.take 6000) = oneCommand.bytes := by
    have length : (oneCommand.bytes.take 6000).length = 6000 := by
      rw [List.length_take, oneCommand.length]
      rfl
    have rest : List.replicate (recordSize - 6000) (0 : Byte) = oneCommand.bytes.drop 6000 := by
      rw [zeros]
      rfl
    rw [filled, length, rest, List.take_append_drop]
  have run : Reaches step Whole Pipe.init (inTwo 6000) := by
    apply reaches_in_two (by decide) (by decide)
    · intro p action other
      cases action with
      | read k => exact absurd rfl (other k)
      | _ => trivial
    · intro p one start
      have offset : p.offset = 0 := by
        rw [Pipe.offset, start]
        rfl
      refine ⟨by rw [offset]; decide, ?_⟩
      rw [if_pos offset]
      left
      rw [Pipe.piece, Pipe.record, one_stream one, offset, start, Nat.sub_zero, List.drop_zero, whole,
        ← oneCommand.length, List.take_length]
    · intro p one later
      have offset : p.offset = 6000 := by
        rw [Pipe.offset, later]
        rfl
      refine ⟨by rw [offset]; decide, ?_⟩
      rw [if_neg (by rw [offset]; decide), Pipe.piece, one_stream one, later, zeros]
      decide +kernel
  have all : (inTwo 6000).read = (inTwo 6000).stream.length := by
    rw [one_stream rfl, oneCommand.length]
    rfl
  exact ⟨inTwo 6000, run, rfl, ((commands_run_once _).1 run).2.1 all⟩

/-- The record arrives in two pieces, of which none has the byte of `argvSize` in its place. -/
theorem partial_record_is_lost :
    ∃ p, Reaches step (fun _ _ => True) Pipe.init p ∧ p.read = p.stream.length ∧
      p.written = [oneCommand] ∧ executes oneCommand.bytes = true ∧ p.ran = [] := by
  refine ⟨inTwo 4096, ?_, ?_, rfl, by decide +kernel, ?_⟩
  · exact reaches_in_two (by decide) (by decide) (fun _ _ _ => trivial) (fun _ _ _ => trivial)
      fun _ _ _ => trivial
  · rw [one_stream rfl, oneCommand.length]
    rfl
  · have first : executes (filled (oneCommand.bytes.take 4096)) = false := by decide +kernel
    have second : executes (filled ((oneCommand.bytes.drop 4096).take (recordSize - 4096))) = false := by
      decide +kernel
    unfold Pipe.ran inTwo
    rw [List.filter_cons_of_neg (by rw [first]; exact Bool.false_ne_true),
      List.filter_cons_of_neg (by rw [second]; exact Bool.false_ne_true), List.filter_nil]

end UtSystems.Yashd.CommandPipe
