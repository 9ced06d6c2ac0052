import UtSystems.Devices.Serial
import UtSystems.Lib.Lockstep
import UtSystems.Libc.Stdio

/-!
# The keyboard of devices/kbd.c and its input buffer

Keys come from the keyboard and from the serial port, and one thread at a time reads them with
`input_getc`: `sys_read` holds `filesys_lock` meanwhile. The specification knows what has been
pressed and released, a queue of 63 keys and who waits for one.
-/

namespace UtSystems.Devices.Keyboard

open Lib.Bytes Lib.RingBuffer Lib.Lockstep
open Libc.Stdio (text)
open Threads.Synch Devices.Serial

set_option autoImplicit false

/-- `left_shift` and the like. -/
inductive ShiftKey where
  | leftShift
  | rightShift
  | leftAlt
  | rightAlt
  | leftCtrl
  | rightCtrl
  deriving DecidableEq, Repr

structure Keys where
  stateVar : ShiftKey → Bool
  capsLock : Bool
  keyCnt : BitVec 64

/-- `first_scancode` and `chars`, without the entry that ends the array. -/
def invariantKeymap : List (Nat × List Byte) :=
  [(0x01, [0x1b]), (0x0e, [0x08]), (0x0f, 0x09 :: text "QWERTYUIOP"), (0x1c, [0x0d]),
    (0x1e, text "ASDFGHJKL"), (0x2c, text "ZXCVBNM"), (0x37, text "*"), (0x39, text " "),
    (0x53, [0x7f])]

def unshiftedKeymap : List (Nat × List Byte) :=
  [(0x02, text "1234567890-="), (0x1a, text "[]"), (0x27, [0x3b, 0x27, 0x60]), (0x2b, [0x5c]),
    (0x33, text ",./")]

def shiftedKeymap : List (Nat × List Byte) :=
  [(0x02, text "!@#$%^&*()_+"), (0x1a, [0x7b, 0x7d]), (0x27, [0x3a, 0x22, 0x7e]),
    (0x2b, [0x7c]), (0x33, text "<>?")]

def mapKey : List (Nat × List Byte) → Word → Option Byte
  | [], _ => none
  | (first, chars) :: k, scancode =>
      if first ≤ scancode.toNat ∧ scancode.toNat < first + chars.length then
        chars[scancode.toNat - first]?
      else mapKey k scancode

def shiftKeys : List (Word × ShiftKey) :=
  [(0x2a, .leftShift), (0x36, .rightShift), (0x38, .leftAlt), (0xe038, .rightAlt),
    (0x1d, .leftCtrl), (0xe01d, .rightCtrl)]

/-- The `else if` on the keymaps. -/
def keymap (shift : Bool) (code : Word) : Option Byte :=
  (mapKey invariantKeymap code).or (mapKey (if shift then shiftedKeymap else unshiftedKeymap) code)

def tolower (c : Byte) : Byte := if 0x41 ≤ c ∧ c ≤ 0x5a then c - 0x41 + 0x61 else c

/-- What `Ctrl`, `Shift`, `Caps Lock` and `Alt` make of a character. -/
def modified (shift alt ctrl capsLock : Bool) (c : Byte) : Byte :=
  let c := if ctrl ∧ 0x40 ≤ c ∧ c < 0x60 then c - 0x40
    else if shift = capsLock then tolower c
    else c
  if alt then c + 0x80 else c

/-- The code with its prefix. -/
def scancode (first second : Byte) : Word :=
  if first = 0xe0 then first.setWidth 32 <<< 8 ||| second.setWidth 32 else first.setWidth 32

inductive Outcome where
  | rebooted
  | keys (keys : Keys) (port : Port)

/-- `first` and `second` are what `inb` delivers; the second byte is read behind a prefix. -/
def keyboardInterrupt (keys : Keys) (port : Port) (first second : Byte) : Outcome :=
  let shift := keys.stateVar .leftShift || keys.stateVar .rightShift
  let alt := keys.stateVar .leftAlt || keys.stateVar .rightAlt
  let ctrl := keys.stateVar .leftCtrl || keys.stateVar .rightCtrl
  let code := scancode first second
  let release := decide (code &&& 0x80 ≠ 0)
  let code := code &&& ~~~0x80
  if code = 0x3a then
    .keys (if release then keys else { keys with capsLock := !keys.capsLock }) port
  else
    match keymap shift code with
    | some c =>
        if release then .keys keys port
        else if c = 0x7f ∧ ctrl ∧ alt then .rebooted
        else if port.input.ring.Full then .keys keys port
        else .keys { keys with keyCnt := keys.keyCnt + 1 }
          (inputPutc port (modified shift alt ctrl keys.capsLock c))
    | none =>
        match shiftKeys.find? fun key => key.1 = code with
        | some (_, key) =>
            .keys { keys with stateVar := Function.update keys.stateVar key (!release) } port
        | none => .keys keys port

structure Machine where
  keys : Keys
  port : Port
  rebooted : Bool
  -- what `input_getc` has returned, the last byte first
  delivered : List (Tid × Byte)

inductive Action where
  | keyboard (first second : Byte)
  -- the serial port has keys and takes bytes
  | serial (received : List Byte) (ready : List Bool)
  -- whatever else the output side of the port does
  | output (port : Port)
  | getc (t : Tid)
  -- the thread that waits in `input_getc` has been unblocked and runs
  | regetc (t : Tid)

/-- `input_getc` from its test on: a byte is returned, or the thread waits. -/
def getTest (m : Machine) (port : Port) (t : Tid) : Option Machine :=
  (port.getTest t).map fun next =>
    { m with
      port := next
      delivered := if port.input.ring.Empty then m.delivered
        else (t, port.input.ring.get.1) :: m.delivered }

/-- The machine after a keyboard interrupt. -/
def interrupted (m : Machine) : Outcome → Machine
  | .rebooted => { m with rebooted := true }
  | .keys keys port => { m with keys := keys, port := port }

def step (m : Machine) (action : Action) : Option Machine :=
  if m.rebooted then none
  else match action with
  | .keyboard first second => some (interrupted m (keyboardInterrupt m.keys m.port first second))
  | .serial received ready => some { m with port := serialInterrupt m.port received ready }
  | .output port => some { m with port := { port with input := m.port.input } }
  | .getc t => if m.port.input.lock = none then getTest m m.port t else none
  | .regetc t =>
      if m.port.input.lock = some t ∧ m.port.input.notEmpty ≠ some t then
        getTest m { m.port with input := { m.port.input with lock := none } } t
      else none

/-- The variables of kbd.c are zero. -/
def boot (port : Port) : Machine where
  keys := { stateVar := fun _ => false, capsLock := false, keyCnt := 0 }
  port := port
  rebooted := false
  delivered := []

/-! ## The specification -/

structure Event where
  code : Word
  release : Bool

/-- What a keyboard interrupt is about. -/
def eventOf (first second : Byte) : Event where
  code := scancode first second &&& ~~~0x80
  release := decide (scancode first second &&& 0x80 ≠ 0)

/-- The key's last event is that it was pressed. The last event comes first. -/
def isDown (history : List Event) (code : Word) : Bool :=
  match history with
  | [] => false
  | event :: history => if event.code = code then !event.release else isDown history code

/-- `Caps Lock` has been pressed an odd number of times. -/
def capsOn (history : List Event) : Bool :=
  (history.countP fun event => event.code = 0x3a ∧ event.release = false) % 2 = 1

def shiftDown (history : List Event) : Bool := isDown history 0x2a || isDown history 0x36
def altDown (history : List Event) : Bool := isDown history 0x38 || isDown history 0xe038
def ctrlDown (history : List Event) : Bool := isDown history 0x1d || isDown history 0xe01d

/-- The character on a key that is pressed. -/
def pressed (history : List Event) (event : Event) : Option Byte :=
  if event.release then none
  else if event.code = 0x3a then none
  else keymap (shiftDown history) event.code

/-- A desk with a keyboard, a queue of keys and a reader. -/
structure Desk where
  history : List Event
  -- the oldest key first
  queue : List Byte
  typed : Nat
  rebooted : Bool
  waiting : Option Tid
  delivered : List (Tid × Byte)

def capacity : Nat := 63

/-- Keys that find no room are lost. -/
def enqueue (queue keys : List Byte) : List Byte := queue ++ keys.take (capacity - queue.length)

def Desk.key (desk : Desk) (event : Event) : Desk :=
  let after := { desk with history := event :: desk.history }
  match pressed desk.history event with
  | none => after
  | some c =>
      if c = 0x7f ∧ ctrlDown desk.history ∧ altDown desk.history then { desk with rebooted := true }
      else if desk.queue.length < capacity then
        { after with
          queue := desk.queue ++ [modified (shiftDown desk.history) (altDown desk.history)
            (ctrlDown desk.history) (capsOn desk.history) c]
          typed := desk.typed + 1 }
      else after

def Desk.deliver (desk : Desk) (t : Tid) : Desk :=
  match desk.queue with
  | [] => { desk with waiting := some t }
  | key :: queue =>
      { desk with queue := queue, waiting := none, delivered := (t, key) :: desk.delivered }

def Desk.step (desk : Desk) (action : Action) : Option Desk :=
  if desk.rebooted then none
  else match action with
  | .keyboard first second => some (desk.key (eventOf first second))
  | .serial received _ => some { desk with queue := enqueue desk.queue received }
  | .output _ => some desk
  | .getc t => if desk.waiting = none then some (desk.deliver t) else none
  | .regetc t => if desk.waiting = some t ∧ desk.queue ≠ [] then some (desk.deliver t) else none

def emptyDesk : Desk where
  history := []
  queue := []
  typed := 0
  rebooted := false
  waiting := none
  delivered := []

/-! ## The kernel and the desk in lockstep -/

/-- The code of a key in `shift_keys`. -/
def code : ShiftKey → Word
  | .leftShift => 0x2a
  | .rightShift => 0x36
  | .leftAlt => 0x38
  | .rightAlt => 0xe038
  | .leftCtrl => 0x1d
  | .rightCtrl => 0xe01d

structure Queued (q : Intq) (queue : List Byte) (waiting : Option Tid) : Prop where
  contents : q.ring.contents = queue
  lock : q.lock = waiting
  -- a reader that waits is asleep as long as there is nothing to read
  asleep : q.notEmpty = if queue = [] then waiting else none

structure Matches (m : Machine) (desk : Desk) : Prop where
  down : ∀ key, m.keys.stateVar key = isDown desk.history (code key)
  caps : m.keys.capsLock = capsOn desk.history
  count : m.keys.keyCnt = BitVec.ofNat 64 desk.typed
  rebooted : m.rebooted = desk.rebooted
  delivered : m.delivered = desk.delivered
  queued : Queued m.port.input desk.queue desk.waiting

section Queues

variable {q : Intq} {queue : List Byte} {waiting : Option Tid}

theorem full_iff (queued : Queued q queue waiting) : q.ring.Full ↔ ¬queue.length < capacity := by
  have bound := @count_lt _ _ q.ring
  rw [← contents_length] at bound
  rw [full_iff_contents, ← queued.contents]
  unfold intqBufsize at bound ⊢
  unfold capacity
  omega

theorem queued_put (queued : Queued q queue waiting) (room : ¬q.ring.Full) (key : Byte) :
    Queued (intqPutc q key) (queue ++ [key]) waiting where
  contents := by
    unfold intqPutc
    dsimp only
    rw [contents_put room, queued.contents]
  lock := queued.lock
  asleep := by simp [intqPutc]

theorem queued_receive {p : Port} (queued : Queued p.input queue waiting) (keys : List Byte) :
    Queued (receive p keys).input (enqueue queue keys) waiting := by
  induction keys generalizing p queue with
  | nil =>
      unfold receive enqueue
      rw [List.take_nil, List.append_nil]
      exact queued
  | cons key keys ih =>
      unfold receive
      by_cases full : p.input.ring.Full
      · have noRoom := (full_iff queued).mp full
        rw [if_pos full]
        unfold enqueue
        rw [show capacity - queue.length = 0 by omega, List.take_zero, List.append_nil]
        exact queued
      · have room : queue.length < capacity := not_not.mp fun past => full ((full_iff queued).mpr past)
        have rest := ih (p := inputPutc p key) (queued_put queued full key)
        have all : enqueue (queue ++ [key]) keys = enqueue queue (key :: keys) := by
          unfold enqueue
          rw [List.length_append, List.length_singleton,
            show capacity - queue.length = (capacity - (queue.length + 1)) + 1 by omega,
            List.take_succ_cons, List.append_assoc]
          rfl
        rw [if_neg full, ← all]
        exact rest

theorem transmit_input (p : Port) (ready : List Bool) : (transmit p ready).input = p.input := by
  induction ready generalizing p with
  | nil => rfl
  | cons now later ih =>
      unfold transmit
      split
      · rfl
      · split
        · exact ih p.out
        · rfl

theorem queued_interrupt {p : Port} (queued : Queued p.input queue waiting) (keys : List Byte)
    (ready : List Bool) :
    Queued (serialInterrupt p keys ready).input (enqueue queue keys) waiting := by
  have received := queued_receive queued keys
  rw [← transmit_input _ ready] at received
  exact received

end Queues

section Codes

variable {history : List Event} {event : Event}

theorem shift_codes_unmapped (key : ShiftKey) (shift : Bool) : keymap shift (code key) = none := by
  cases key <;> cases shift <;> decide

theorem shift_codes_not_caps (key : ShiftKey) : code key ≠ 0x3a := by
  cases key <;> decide

theorem shift_key_found {found : Word} {key : ShiftKey} {scancode : Word}
    (some_ : shiftKeys.find? (fun key => key.1 = scancode) = some (found, key)) :
    code key = scancode := by
  have same := List.find?_some some_
  have member := List.mem_of_find?_eq_some some_
  have listed : ∀ pair ∈ shiftKeys, code pair.2 = pair.1 := by decide
  have isCode := listed _ member
  rw [isCode]
  exact of_decide_eq_true same

theorem shift_key_missing {scancode : Word}
    (none_ : shiftKeys.find? (fun key => key.1 = scancode) = none) (key : ShiftKey) :
    code key ≠ scancode := by
  have listed : (code key, key) ∈ shiftKeys := by cases key <;> decide
  have differs := List.find?_eq_none.mp none_ _ listed
  intro same
  exact differs (decide_eq_true same)

theorem code_injective {first second : ShiftKey} (same : code first = code second) :
    first = second := by
  revert same
  cases first <;> cases second <;> decide

theorem down_other {code : Word} (different : event.code ≠ code) :
    isDown (event :: history) code = isDown history code := by
  unfold isDown
  rw [if_neg different]
  cases history <;> rfl

theorem down_same {code : Word} (same : event.code = code) :
    isDown (event :: history) code = !event.release := by
  unfold isDown
  rw [if_pos same]

end Codes

section Steps

variable {m : Machine} {desk : Desk}

theorem matches_shift (matched : Matches m desk) :
    (m.keys.stateVar .leftShift || m.keys.stateVar .rightShift) = shiftDown desk.history ∧
      (m.keys.stateVar .leftAlt || m.keys.stateVar .rightAlt) = altDown desk.history ∧
      (m.keys.stateVar .leftCtrl || m.keys.stateVar .rightCtrl) = ctrlDown desk.history := by
  refine ⟨?_, ?_, ?_⟩ <;> rw [matched.down, matched.down] <;> rfl

theorem caps_pressed {history : List Event} {event : Event} (isCaps : event.code = 0x3a)
    (press : event.release = false) : capsOn (event :: history) = !capsOn history := by
  unfold capsOn
  rw [List.countP_cons, if_pos (decide_eq_true ⟨isCaps, press⟩), ← decide_not]
  congr 1
  apply propext
  omega

theorem caps_kept {history : List Event} {event : Event}
    (other : ¬(event.code = 0x3a ∧ event.release = false)) :
    capsOn (event :: history) = capsOn history := by
  unfold capsOn
  rw [List.countP_cons, if_neg (fun isCaps => other (of_decide_eq_true isCaps)), Nat.add_zero]

/-- An event that changes no variable. -/
theorem matches_noted (matched : Matches m desk) {event : Event}
    (notShift : ∀ key, code key ≠ event.code)
    (notCaps : ¬(event.code = 0x3a ∧ event.release = false)) :
    Matches m { desk with history := event :: desk.history } where
  down key := (matched.down key).trans (down_other fun same => notShift key same.symm).symm
  caps := matched.caps.trans (caps_kept notCaps).symm
  count := matched.count
  rebooted := matched.rebooted
  delivered := matched.delivered
  queued := matched.queued

theorem caps_matches (matched : Matches m desk) {event : Event} (isCaps : event.code = 0x3a) :
    Matches { m with keys :=
      if event.release = true then m.keys else { m.keys with capsLock := !m.keys.capsLock } }
      { desk with history := event :: desk.history } := by
  have notShift : ∀ key, code key ≠ event.code := by
    intro key
    rw [isCaps]
    exact shift_codes_not_caps key
  by_cases release : event.release = true
  · rw [if_pos release]
    exact matches_noted matched notShift fun both => Bool.false_ne_true (both.2.symm.trans release)
  · have press : event.release = false := Bool.not_eq_true _ ▸ release
    rw [if_neg release]
    refine ⟨fun key => ?_, ?_, matched.count, matched.rebooted, matched.delivered, matched.queued⟩
    · exact (matched.down key).trans (down_other fun same => notShift key same.symm).symm
    · dsimp only
      rw [caps_pressed isCaps press, matched.caps]

theorem shift_matches (matched : Matches m desk) {event : Event} {key : ShiftKey}
    (isKey : code key = event.code) :
    Matches { m with keys :=
        { m.keys with stateVar := Function.update m.keys.stateVar key (!event.release) } }
      { desk with history := event :: desk.history } where
  down other := by
    dsimp only
    by_cases same : other = key
    · rw [same, Function.update_self, down_same isKey.symm]
    · have different : event.code ≠ code other :=
        fun isOther => same (code_injective (isOther.symm.trans isKey.symm))
      rw [Function.update_of_ne same, down_other different]
      exact matched.down other
  caps := by
    have notCaps : ¬(event.code = 0x3a ∧ event.release = false) :=
      fun both => shift_codes_not_caps key (isKey.trans both.1)
    exact matched.caps.trans (caps_kept notCaps).symm
  count := matched.count
  rebooted := matched.rebooted
  delivered := matched.delivered
  queued := matched.queued

/-- A key is put in the buffer. -/
theorem put_matches (matched : Matches m desk) (room : ¬m.port.input.ring.Full) (key : Byte) :
    Matches { m with
        keys := { m.keys with keyCnt := m.keys.keyCnt + 1 }
        port := inputPutc m.port key }
      { desk with queue := desk.queue ++ [key], typed := desk.typed + 1 } where
  down := matched.down
  caps := matched.caps
  count := by
    dsimp only
    rw [matched.count, BitVec.ofNat_add]
    rfl
  rebooted := matched.rebooted
  delivered := matched.delivered
  queued := queued_put matched.queued room key

theorem keyboard_matches (matched : Matches m desk) (first second : Byte) :
    Matches (interrupted m (keyboardInterrupt m.keys m.port first second))
      (desk.key (eventOf first second)) := by
  obtain ⟨shift, alt, ctrl⟩ := matches_shift matched
  unfold keyboardInterrupt Desk.key pressed
  simp only [shift, alt, ctrl]
  generalize isEvent : eventOf first second = event
  have isCode : scancode first second &&& ~~~0x80 = event.code := by
    rw [← isEvent]
    rfl
  have isRelease : decide (scancode first second &&& 0x80 ≠ 0) = event.release := by
    rw [← isEvent]
    rfl
  rw [isCode, isRelease]
  by_cases isCaps : event.code = 0x3a
  · rw [if_pos isCaps, if_pos isCaps, ite_self]
    exact caps_matches matched isCaps
  have notCaps : ¬(event.code = 0x3a ∧ event.release = false) := fun both => isCaps both.1
  rw [if_neg isCaps, if_neg isCaps]
  cases mapped : keymap (shiftDown desk.history) event.code with
  | none =>
      rw [ite_self]
      dsimp only
      cases found : shiftKeys.find? fun key => key.1 = event.code with
      | none => exact matches_noted matched (shift_key_missing found) notCaps
      | some pair => exact shift_matches matched (shift_key_found found)
  | some c =>
      have notShift : ∀ key, code key ≠ event.code := by
        intro key same
        rw [← same, shift_codes_unmapped key] at mapped
        cases mapped
      have noted := matches_noted matched notShift notCaps
      cases release : event.release with
      | true => exact noted
      | false =>
          dsimp only
          rw [if_neg Bool.false_ne_true, if_neg Bool.false_ne_true]
          dsimp only
          by_cases reboots : c = 0x7f ∧ ctrlDown desk.history = true ∧ altDown desk.history = true
          · rw [if_pos reboots, if_pos reboots]
            exact ⟨matched.down, matched.caps, matched.count, rfl, matched.delivered, matched.queued⟩
          · rw [if_neg reboots, if_neg reboots]
            by_cases full : m.port.input.ring.Full
            · rw [if_pos full, if_neg ((full_iff matched.queued).mp full)]
              exact noted
            · have room : desk.queue.length < capacity :=
                not_not.mp fun past => full ((full_iff matched.queued).mpr past)
              rw [if_neg full, if_pos room, ← matched.caps]
              exact put_matches noted full _

/-- A byte is returned if there is one, and otherwise the thread waits. -/
theorem get_test_matches {port : Port} (matched : Matches { m with port := port }
      { desk with waiting := none }) (t : Tid) :
    Option.Rel Matches (getTest m port t) (some (desk.deliver t)) := by
  obtain ⟨down, caps, count, rebooted, delivered, queued⟩ := matched
  have contents := queued.contents
  unfold getTest Desk.deliver
  by_cases empty : port.input.ring.Empty
  · have none_ : desk.queue = [] := contents.symm.trans (empty_iff_contents.mp empty)
    have waits : port.getTest t = some { port with
        input := { port.input with lock := some t, notEmpty := some t } } := by
      unfold Port.getTest
      rw [if_pos empty, if_pos queued.lock]
    rw [waits, Option.map_some, if_pos empty, none_]
    refine .some ⟨down, caps, count, rebooted, delivered, ⟨?_, rfl, ?_⟩⟩
    · exact contents.trans none_
    · rfl
  · have cut := contents_get empty
    rw [contents] at cut
    dsimp only at cut
    have returned : port.getTest t =
        some (writeIer { port with input := (intqGetc port.input).2 }) := by
      unfold Port.getTest
      rw [if_neg empty]
    rw [returned, Option.map_some, if_neg empty, cut]
    refine .some ⟨down, caps, count, rebooted, ?_, ⟨rfl, queued.lock, ?_⟩⟩
    · dsimp only
      rw [delivered]
    · have asleep := queued.asleep
      rw [ite_self] at asleep
      exact asleep.trans (ite_self _).symm

theorem step_matches : InLockstep Matches step Desk.step := by
  intro m desk action matched
  have both := matched.rebooted
  have queued := matched.queued
  unfold step Desk.step
  by_cases ended : desk.rebooted = true
  · rw [if_pos ended, if_pos (both.trans ended)]
    exact .none
  · have runs : ¬m.rebooted = true := fun gone => ended (both.symm.trans gone)
    rw [if_neg ended, if_neg runs]
    cases action with
    | keyboard first second =>
        exact .some (keyboard_matches matched first second)
    | serial received ready =>
        exact .some ⟨matched.down, matched.caps, matched.count, matched.rebooted,
          matched.delivered, queued_interrupt queued received ready⟩
    | output port =>
        exact .some ⟨matched.down, matched.caps, matched.count, matched.rebooted,
          matched.delivered, queued⟩
    | getc t =>
        dsimp only
        rw [queued.lock]
        by_cases idle : desk.waiting = none
        · rw [if_pos idle, if_pos idle]
          apply get_test_matches
          rw [idle] at queued
          exact ⟨matched.down, matched.caps, matched.count, matched.rebooted, matched.delivered,
            queued⟩
        · rw [if_neg idle, if_neg idle]
          exact .none
    | regetc t =>
        dsimp only
        rw [queued.lock, queued.asleep]
        by_cases wakes : desk.waiting = some t ∧ desk.queue ≠ []
        · have awake : desk.waiting = some t ∧
              (if desk.queue = [] then desk.waiting else none) ≠ some t := by
            rw [if_neg wakes.2]
            exact ⟨wakes.1, Option.some_ne_none t ∘ Eq.symm⟩
          rw [if_pos wakes, if_pos awake]
          apply get_test_matches
          refine ⟨matched.down, matched.caps, matched.count, matched.rebooted, matched.delivered,
            ⟨queued.contents, rfl, ?_⟩⟩
          exact (if_neg wakes.2).trans (ite_self _).symm
        · have sleeps : ¬(desk.waiting = some t ∧
              (if desk.queue = [] then desk.waiting else none) ≠ some t) := by
            intro awake
            apply wakes
            refine ⟨awake.1, fun empty => ?_⟩
            rw [if_pos empty] at awake
            exact awake.2 awake.1
          rw [if_neg wakes, if_neg sleeps]
          exact .none

end Steps

theorem boot_matches (buf : Fin intqBufsize → Byte) (port : Port) :
    Matches (boot { port with input := intqInit buf }) emptyDesk where
  down _ := rfl
  caps := rfl
  count := rfl
  rebooted := rfl
  delivered := rfl
  queued := ⟨empty_iff_contents.mp rfl, rfl, rfl⟩

/-- From `input_init` on the keyboard, the input buffer and their reader do what the desk does:
an action is possible for both or for neither, the buffer holds the queue, and the same bytes are
delivered. -/
theorem keyboard_runs_as_desk (buf : Fin intqBufsize → Byte) (port : Port) (actions : List Action) :
    Option.Rel Matches (performs step (boot { port with input := intqInit buf }) actions)
      (performs Desk.step emptyDesk actions) :=
  lockstep_performs step_matches (boot_matches buf port) actions

end UtSystems.Devices.Keyboard
