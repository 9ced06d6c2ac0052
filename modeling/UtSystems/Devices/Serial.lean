import UtSystems.Lib.Bytes
import UtSystems.Lib.GuardedRun
import UtSystems.Lib.RingBuffer
import UtSystems.Threads.Synch

/-!
# Serial output of devices/serial.c and devices/intq.c

The port is in mode `QUEUE`. Interrupts are off in all of these functions, except while a thread
waits in `wait`; so a call runs to its end or to `thread_block` in one step. A thread is blocked as
long as `not_full` or `not_empty` names it.

`thr` is what has been written to `THR_REG`, and `passed` what `serial_putc` was called with.
-/

namespace UtSystems.Devices.Serial

open Lib.Bytes Lib.GuardedRun Lib.RingBuffer Threads.Synch

set_option autoImplicit false

/-- `INTQ_BUFSIZE`. -/
def intqBufsize : Nat := 64

structure Intq where
  ring : Ring Byte intqBufsize
  -- `lock->holder`
  lock : Option Tid
  notFull : Option Tid
  notEmpty : Option Tid

/-- `intq_init`; the buffer holds what it held. -/
def intqInit (buf : Fin intqBufsize → Byte) : Intq :=
  { ring := { buf := buf, head := ⟨0, by decide⟩, tail := ⟨0, by decide⟩ }
    lock := none, notFull := none, notEmpty := none }

/-- `intq_getc` after its loop. -/
def intqGetc (q : Intq) : Byte × Intq :=
  (q.ring.get.1, { q with ring := q.ring.get.2, notFull := none })

/-- `intq_putc` after its loop. -/
def intqPutc (q : Intq) (byte : Byte) : Intq :=
  { q with ring := q.ring.put byte, notEmpty := none }

/-- `IER_RECV`. -/
def ierRecv : Byte := 0x01

/-- `IER_XMIT`. -/
def ierXmit : Byte := 0x02

structure Port where
  txq : Intq
  -- `buffer` of devices/input.c
  input : Intq
  ier : Byte
  thr : List Byte
  passed : List Byte
  -- the call of `serial_putc` that waits for `txq` not to be full
  pending : Option (Tid × Byte)

def writeIer (p : Port) : Port :=
  { p with
    ier := (if p.txq.ring.Empty then 0 else ierXmit) ||| (if p.input.ring.Full then 0 else ierRecv) }

/-- `outb (THR_REG, intq_getc (&txq))`; `putc_poll` waits until the port is ready for it. -/
def Port.out (p : Port) : Port :=
  let (byte, txq) := intqGetc p.txq
  { p with txq := txq, thr := p.thr ++ [byte] }

/-- From the test of the loop in `intq_putc` to the end of `serial_putc` or to `thread_block`; none
if `q->lock` is not free. -/
def Port.putTest (p : Port) (t : Tid) (byte : Byte) : Option Port :=
  if p.txq.ring.Full then
    if p.txq.lock = none then
      some { p with
        txq := { p.txq with lock := some t, notFull := some t }
        pending := some (t, byte) }
    else none
  else some (writeIer { p with txq := intqPutc p.txq byte, pending := none })

/-- `on` is the level of the interrupts at the call. -/
def serialPutc (p : Port) (t : Tid) (byte : Byte) (on : Bool) : Option Port :=
  let p := if on = false ∧ p.txq.ring.Full then p.out else p
  { p with passed := p.passed ++ [byte] }.putTest t byte

/-- The thread that waits in `serial_putc` has been unblocked and runs. -/
def Port.resume (p : Port) : Option Port :=
  match p.pending with
  | none => none
  | some (t, byte) =>
      if p.txq.notFull = some t then none
      else { p with txq := { p.txq with lock := none } }.putTest t byte

def serialFlush (p : Port) : Port :=
  if p.txq.ring.Empty then p else serialFlush p.out
termination_by p.txq.ring.count
decreasing_by
  have less := count_get ‹_›
  exact Nat.lt_of_lt_of_eq (Nat.lt_succ_self _) less.symm

/-- `input_putc`. -/
def inputPutc (p : Port) (key : Byte) : Port :=
  writeIer { p with input := intqPutc p.input key }

/-- The loop that receives; `keys` are what the port has. -/
def receive (p : Port) : List Byte → Port
  | [] => p
  | key :: keys => if p.input.ring.Full then p else receive (inputPutc p key) keys

/-- The loop that transmits; `ready` are the answers of `LSR_REG`. -/
def transmit (p : Port) : List Bool → Port
  | [] => p
  | ready :: rest =>
      if p.txq.ring.Empty then p
      else if ready then transmit p.out rest
      else p

def serialInterrupt (p : Port) (keys : List Byte) (ready : List Bool) : Port :=
  writeIer (transmit (receive p keys) ready)

/-- `input_getc` from the test in `intq_getc` to its end or to `thread_block`. -/
def Port.getTest (p : Port) (t : Tid) : Option Port :=
  if p.input.ring.Empty then
    if p.input.lock = none then
      some { p with input := { p.input with lock := some t, notEmpty := some t } }
    else none
  else some (writeIer { p with input := (intqGetc p.input).2 })

inductive Action where
  | putc (t : Tid) (byte : Byte) (on : Bool)
  | resume
  | interrupt (keys : List Byte) (ready : List Bool)
  | flush
  -- the keyboard's
  | key (key : Byte)
  | getc (t : Tid)
  -- the thread that waits in `input_getc` has been unblocked and runs
  | regetc (t : Tid)
  deriving DecidableEq, Repr

/-- The calls of `serial_putc` come one after the other. -/
def step (p : Port) : Action → Option Port
  | .putc t byte on => if p.pending = none then serialPutc p t byte on else none
  | .resume => p.resume
  | .interrupt keys ready => some (serialInterrupt p keys ready)
  | .flush => some (serialFlush p)
  | .key key => if p.input.ring.Full then none else some (inputPutc p key)
  | .getc t => p.getTest t
  | .regetc t =>
      if p.input.lock = some t ∧ p.input.notEmpty ≠ some t then
        { p with input := { p.input with lock := none } }.getTest t
      else none

/-- After `serial_init_queue`. -/
def queueMode (buf : Fin intqBufsize → Byte) (input : Intq) : Port :=
  writeIer { txq := intqInit buf, input := input, ier := 0, thr := [], passed := [], pending := none }

structure Sent (p : Port) : Prop where
  order : p.thr ++ p.txq.ring.contents ++ (p.pending.map Prod.snd).toList = p.passed
  lock : p.txq.lock = p.pending.map Prod.fst
  asleep : ∀ t, p.txq.notFull = some t → p.txq.lock = some t ∧ p.txq.ring.Full
  woken : p.pending ≠ none → p.txq.notFull = none → ¬p.txq.ring.Full
  reader : p.txq.notEmpty = none

section Steps

variable {p next : Port}

@[simp] theorem write_ier_txq : (writeIer p).txq = p.txq := rfl
@[simp] theorem write_ier_thr : (writeIer p).thr = p.thr := rfl
@[simp] theorem write_ier_passed : (writeIer p).passed = p.passed := rfl
@[simp] theorem write_ier_pending : (writeIer p).pending = p.pending := rfl

/-- `Sent` is about the output only. -/
theorem sent_of_same (sent : Sent p) (txq : next.txq = p.txq) (thr : next.thr = p.thr)
    (passed : next.passed = p.passed) (pending : next.pending = p.pending) : Sent next := by
  constructor
  · rw [txq, thr, passed, pending]
    exact sent.order
  · rw [txq, pending]
    exact sent.lock
  · rw [txq]
    exact sent.asleep
  · rw [txq, pending]
    exact sent.woken
  · rw [txq]
    exact sent.reader

theorem sent_write_ier (sent : Sent p) : Sent (writeIer p) := sent_of_same sent rfl rfl rfl rfl

/-- The oldest byte goes out, and the thread that waits is unblocked. -/
theorem sent_out (sent : Sent p) (some_ : ¬p.txq.ring.Empty) : Sent p.out := by
  refine ⟨?_, sent.lock, fun _ impossible => (by cases impossible), fun _ _ full => ?_, sent.reader⟩
  · refine Eq.trans ?_ sent.order
    rw [contents_get some_]
    dsimp only [Port.out, intqGetc]
    simp only [List.append_assoc, List.cons_append, List.nil_append]
  · -- a ring with one item less has room
    have before := count_get some_
    have bound := @count_lt _ _ p.txq.ring
    have after := full_count full
    dsimp only [Port.out, intqGetc] at after
    omega

theorem sent_flush (sent : Sent p) : Sent (serialFlush p) := by
  fun_induction serialFlush p with
  | case1 p empty => exact sent
  | case2 p some_ ih => exact ih (sent_out sent some_)

theorem sent_receive (sent : Sent p) (keys : List Byte) : Sent (receive p keys) := by
  induction keys generalizing p with
  | nil => exact sent
  | cons key keys ih =>
      unfold receive
      split
      · exact sent
      · exact ih (sent_of_same sent rfl rfl rfl rfl)

theorem sent_transmit (sent : Sent p) (ready : List Bool) : Sent (transmit p ready) := by
  induction ready generalizing p with
  | nil => exact sent
  | cons now later ih =>
      unfold transmit
      split
      · exact sent
      · next some_ =>
        split
        · exact ih (sent_out sent some_)
        · exact sent

/-- A byte is queued, or the caller waits behind a full queue; `rest` are the bytes passed
before. -/
theorem sent_put_test {t : Tid} {byte : Byte} {rest : List Byte}
    (taken : p.putTest t byte = some next) (order : p.thr ++ p.txq.ring.contents = rest)
    (passed : p.passed = rest ++ [byte]) (free : p.txq.lock = none) (awake : p.txq.notFull = none)
    (reader : p.txq.notEmpty = none) : Sent next := by
  unfold Port.putTest at taken
  split at taken
  · next full =>
    cases taken
    refine ⟨?_, rfl, ?_, fun _ impossible => (by cases impossible), reader⟩
    · rw [passed, ← order]
      rfl
    · intro u isCaller
      exact ⟨isCaller, full⟩
  · next room =>
    cases taken
    apply sent_write_ier
    refine ⟨?_, free, ?_, fun impossible => absurd rfl impossible, rfl⟩
    · dsimp only [intqPutc]
      rw [contents_put room, passed, ← order]
      simp only [Option.map_none, Option.toList_none, List.append_nil, List.append_assoc]
    · intro u isCaller
      rw [show (intqPutc p.txq byte).notFull = p.txq.notFull from rfl, awake] at isCaller
      cases isCaller

theorem put_test_some {t : Tid} {byte : Byte} (free : p.txq.lock = none) :
    ∃ next, p.putTest t byte = some next := by
  unfold Port.putTest
  split
  · exact ⟨_, rfl⟩
  · exact ⟨_, rfl⟩

theorem sent_idle (sent : Sent p) (idle : p.pending = none) :
    p.thr ++ p.txq.ring.contents = p.passed ∧ p.txq.lock = none ∧ p.txq.notFull = none := by
  have order := sent.order
  have lock := sent.lock
  rw [idle] at order lock
  rw [Option.map_none, Option.toList_none, List.append_nil] at order
  refine ⟨order, lock, ?_⟩
  cases asleep : p.txq.notFull with
  | none => rfl
  | some t =>
      obtain ⟨held, _⟩ := sent.asleep t asleep
      rw [lock] at held
      cases held

theorem sent_putc (sent : Sent p) (idle : p.pending = none) {t : Tid} {byte : Byte} {on : Bool}
    (taken : serialPutc p t byte on = some next) : Sent next := by
  unfold serialPutc at taken
  dsimp only at taken
  split at taken
  · next full =>
    have some_ : ¬p.txq.ring.Empty := by
      intro empty
      have none_ := empty_iff_count.mp empty
      have all := full_count full.2
      rw [none_] at all
      exact absurd all (by decide)
    have polled := sent_out sent some_
    obtain ⟨order, free, awake⟩ := sent_idle polled idle
    exact sent_put_test taken order rfl free awake polled.reader
  · obtain ⟨order, free, awake⟩ := sent_idle sent idle
    exact sent_put_test taken order rfl free awake sent.reader

theorem putc_some (sent : Sent p) (idle : p.pending = none) (t : Tid) (byte : Byte) (on : Bool) :
    ∃ next, serialPutc p t byte on = some next := by
  obtain ⟨_, free, _⟩ := sent_idle sent idle
  unfold serialPutc
  dsimp only
  split
  · exact put_test_some free
  · exact put_test_some free

theorem sent_resume (sent : Sent p) (taken : p.resume = some next) :
    Sent next ∧ next.pending = none := by
  unfold Port.resume at taken
  split at taken
  · cases taken
  · next t byte waits =>
    obtain ⟨asleep, eq⟩ := Option.ite_none_left_eq_some.mp taken
    have lock := sent.lock
    rw [waits] at lock
    -- only the caller can be recorded
    have awake : p.txq.notFull = none := by
      cases recorded : p.txq.notFull with
      | none => rfl
      | some u =>
          obtain ⟨held, _⟩ := sent.asleep u recorded
          rw [lock] at held
          cases held
          exact absurd recorded asleep
    have room : ¬p.txq.ring.Full := sent.woken (by rw [waits]; simp) awake
    have order := sent.order
    rw [waits] at order
    refine ⟨sent_put_test eq rfl order.symm rfl awake sent.reader, ?_⟩
    unfold Port.putTest at eq
    rw [if_neg room] at eq
    cases eq
    rfl

theorem sent_get_test {t : Tid} (taken : p.getTest t = some next) (sent : Sent p) : Sent next := by
  unfold Port.getTest at taken
  split at taken
  · obtain ⟨_, eq⟩ := Option.ite_none_right_eq_some.mp taken
    cases eq
    exact sent_of_same sent rfl rfl rfl rfl
  · cases taken
    exact sent_of_same sent rfl rfl rfl rfl

theorem step_sent (sent : Sent p) {action : Action} (taken : step p action = some next) :
    Sent next := by
  cases action with
  | putc t byte on =>
      obtain ⟨idle, eq⟩ := Option.ite_none_right_eq_some.mp taken
      exact sent_putc sent idle eq
  | resume => exact (sent_resume sent taken).1
  | interrupt keys ready =>
      cases taken
      exact sent_write_ier (sent_transmit (sent_receive sent keys) ready)
  | flush =>
      cases taken
      exact sent_flush sent
  | key key =>
      obtain ⟨_, eq⟩ := Option.ite_none_left_eq_some.mp taken
      cases eq
      exact sent_of_same sent rfl rfl rfl rfl
  | getc t => exact sent_get_test taken sent
  | regetc t =>
      obtain ⟨_, eq⟩ := Option.ite_none_right_eq_some.mp taken
      exact sent_get_test eq (sent_of_same sent rfl rfl rfl rfl)

theorem queue_mode_sent (buf : Fin intqBufsize → Byte) (input : Intq) :
    Sent (queueMode buf input) := by
  have empty : (queueMode buf input).txq.ring.contents = [] := empty_iff_contents.mp rfl
  refine ⟨?_, rfl, fun _ impossible => (by cases impossible), fun impossible => absurd rfl impossible,
    rfl⟩
  rw [empty]
  rfl

end Steps

theorem reaches_sent {buf : Fin intqBufsize → Byte} {input : Intq} {p : Port}
    (run : Reaches step (fun _ _ => True) (queueMode buf input) p) : Sent p :=
  reaches_invariant Sent (queue_mode_sent buf input)
    (fun _ _ _ sent _ taken => step_sent sent taken) run

/-- In every run the bytes written to the port, those still queued and that of a caller who waits
are the bytes passed to `serial_putc`, in that order. At most 63 are queued, and none exactly if
head and tail agree. A call goes through when none is in progress; a caller waits behind a full
queue and is recorded, and when the record is gone its byte is queued next. -/
theorem serial_output_in_order (buf : Fin intqBufsize → Byte) (input : Intq) (p : Port)
    (run : Reaches step (fun _ _ => True) (queueMode buf input) p) :
    p.thr ++ p.txq.ring.contents ++ (p.pending.map Prod.snd).toList = p.passed ∧
    p.txq.ring.contents.length ≤ intqBufsize - 1 ∧
    (p.txq.ring.head = p.txq.ring.tail ↔ p.txq.ring.contents = []) ∧
    (p.pending = none → ∀ t byte on, ∃ next, step p (.putc t byte on) = some next) ∧
    (∀ t byte, p.pending = some (t, byte) → p.txq.notFull = some t ∧ p.txq.ring.Full ∨
      ∃ next, step p .resume = some next ∧ next.pending = none) := by
  have sent := reaches_sent run
  have length : p.txq.ring.contents.length ≤ intqBufsize - 1 := by
    have bound := @count_lt _ _ p.txq.ring
    rw [contents_length]
    omega
  refine ⟨sent.order, length, empty_iff_contents, fun idle t byte on => ?_, fun t byte waits => ?_⟩
  · obtain ⟨next, goes⟩ := putc_some sent idle t byte on
    exact ⟨next, (if_pos idle).trans goes⟩
  · by_cases asleep : p.txq.notFull = some t
    · exact .inl ⟨asleep, (sent.asleep t asleep).2⟩
    · obtain ⟨next, goes⟩ := @put_test_some { p with txq := { p.txq with lock := none } } t byte rfl
      have resumes : p.resume = some next := by
        unfold Port.resume
        rw [waits]
        exact (if_neg asleep).trans goes
      exact .inr ⟨next, resumes, (sent_resume sent resumes).2⟩

/-- 64 bytes are passed, the last one to a full queue; then the port takes two. -/
theorem serial_output_in_order_full :
    ∃ p, Reaches step (fun _ _ => True) (queueMode (fun _ => 0) (intqInit fun _ => 0)) p ∧
      p.pending = some (1, 7) ∧ p.thr = [0, 0] ∧
      p.thr ++ p.txq.ring.contents ++ (p.pending.map Prod.snd).toList = p.passed ∧
      p.txq.ring.contents.length ≤ intqBufsize - 1 := by
  obtain ⟨p, run, passes⟩ := @reaches_of_check _ _ step (fun _ _ => True) _
    (queueMode (fun _ => 0) (intqInit fun _ => 0))
    (List.replicate 63 (.putc 1 0 true) ++ [.putc 1 7 true, .interrupt [] [true, true, false]])
    (fun p => p.pending = some (1, 7) ∧ p.thr = [0, 0]) (by decide +kernel)
  obtain ⟨pending, thr⟩ := of_decide_eq_true passes
  obtain ⟨order, length, _⟩ := serial_output_in_order _ _ p run
  exact ⟨p, run, pending, thr, order, length⟩

end UtSystems.Devices.Serial
