import UtSystems.Lib.Bytes
import Mathlib.Data.List.Basic

/-!
# Messages on the socket of yashd

`client.c` sends a message with one `send`, and `yash_thread` takes what one `recv` returns for one
message. TCP keeps the bytes and their order, but may cut them anywhere.
-/

namespace UtSystems.Yashd.Framing

open Lib.Bytes

set_option autoImplicit false

-- "CMD "
def cmdWord : List Byte := [67, 77, 68, 32]

-- "CTL "
def ctlWord : List Byte := [67, 84, 76, 32]

inductive ECtlType where
  | int
  | stop
  deriving DecidableEq, Repr

/-- What `yash_thread` does with a message. -/
inductive Act where
  -- `yashd_handle_cmd`, with its line
  | cmd (line : List Byte)
  -- the write to `ctl_pipe`
  | ctl (type : ECtlType)
  -- `yash_thread_exit`
  | exit
  deriving DecidableEq, Repr

/-- The string that begins in the buffer, without its NUL. -/
def cString (buf : List Byte) : List Byte := buf.takeWhile (· ≠ 0)

/-- `0 == strncmp(buf, word, strlen(word))`. -/
def startsWith (buf word : List Byte) : Bool := word.isPrefixOf buf

def yashdHandleCtl (buf : List Byte) : Option Act :=
  -- "d\n"
  if startsWith buf [100, 10] then some .exit
  -- "c\n"
  else if startsWith buf [99, 10] then some (.ctl .int)
  -- "z\n"
  else if startsWith buf [122, 10] then some (.ctl .stop)
  else none

def yashdHandleMsg (buf : List Byte) : Option Act :=
  if startsWith buf cmdWord then some (.cmd (buf.drop 4))
  else if startsWith buf ctlWord then yashdHandleCtl (buf.drop 4)
  else none

/-- `sizeof(buf)`. -/
def bufsize : Nat := 1024

/-- The loop of `yash_thread` over what `recv` returns; none if `buf[sock_rc] = '\\0'` stores outside
of the buffer. -/
def yashThread : List (List Byte) → Option (List Act)
  | [] => some []
  | chunk :: chunks =>
      if bufsize ≤ chunk.length then none
      else
        match yashdHandleMsg (cString chunk) with
        | none => yashThread chunks
        | some .exit => some [.exit]
        | some act => (yashThread chunks).map (act :: ·)

/-- A line without NUL. -/
structure Line where
  bytes : List Byte
  noNul : (0 : Byte) ∉ bytes

inductive Message where
  | cmd (line : Line)
  -- `CTLC`, `CTLZ` and `CTLD`
  | ctlc
  | ctlz
  | ctld

/-- The bytes of a message without its padding; `snprintf` keeps 119. -/
def Message.text : Message → List Byte
  | .cmd line => (cmdWord ++ line.bytes).take 119
  | .ctlc => ctlWord ++ [99, 10]
  | .ctlz => ctlWord ++ [122, 10]
  | .ctld => ctlWord ++ [100, 10]

/-- How many NULs `linePayload` has behind the text. -/
def Message.padding : Message → Nat
  | .cmd line => 120 - ((cmdWord ++ line.bytes).take 119).length
  | _ => 0

def Message.bytes (m : Message) : List Byte := m.text ++ List.replicate m.padding 0

def flat (msgs : List Message) : List Byte := msgs.flatMap Message.bytes

/-- `main` of `client.c` exits after `CTLD`; only `ctlHandler` may still send. -/
def FromClient : List Message → Prop
  | [] => True
  | .ctld :: rest => ∀ m ∈ rest, m = .ctlc ∨ m = .ctlz
  | _ :: rest => FromClient rest

/-- The chunks have the bytes of the messages. -/
structure Delivered (msgs : List Message) (chunks : List (List Byte)) : Prop where
  bytes : chunks.flatten = flat msgs
  some_ : ∀ chunk ∈ chunks, chunk ≠ []
  fits : ∀ chunk ∈ chunks, chunk.length ≤ bufsize

/-- Each message begins a chunk that contains its text and nothing of the next message; after
`CTLD` anything may follow, also in the same chunk. -/
inductive Aligned : List Message → List (List Byte) → Prop where
  | nil : Aligned [] []
  | exit {msgs : List Message} {first : List Byte} {chunks : List (List Byte)}
      (begins : Message.ctld.text <+: first) (small : first.length < bufsize) :
      Aligned (.ctld :: msgs) (first :: chunks)
  | message {m : Message} {msgs : List Message} {first : List Byte}
      {later chunks : List (List Byte)} (stays : m ≠ .ctld) (begins : m.text <+: first)
      (all : (first :: later).flatten = m.bytes) (rest : Aligned msgs chunks) :
      Aligned (m :: msgs) (first :: later ++ chunks)

def Message.act : Message → Act
  | .cmd line => .cmd (((cmdWord ++ line.bytes).take 119).drop 4)
  | .ctlc => .ctl .int
  | .ctlz => .ctl .stop
  | .ctld => .exit

/-- What is to be done for the messages. -/
def expected : List Message → List Act
  | [] => []
  | .ctld :: _ => [.exit]
  | m :: msgs => m.act :: expected msgs

section Messages

variable {m : Message}

theorem text_no_nul : ∀ byte ∈ m.text, decide (byte ≠ 0) = true := by
  intro byte inside
  have notNul : byte ≠ 0 := by
    rintro rfl
    cases m with
    | cmd line =>
        rcases List.mem_append.mp (List.mem_of_mem_take inside) with word | own
        · exact absurd word (by decide)
        · exact line.noNul own
    | ctlc => exact absurd inside (by decide)
    | ctlz => exact absurd inside (by decide)
    | ctld => exact absurd inside (by decide)
  exact decide_eq_true notNul

theorem text_length : 4 ≤ m.text.length := by
  cases m with
  | cmd line =>
      rw [Message.text, List.length_take, List.length_append]
      have four : cmdWord.length = 4 := rfl
      omega
  | ctlc => decide
  | ctlz => decide
  | ctld => decide

theorem bytes_length : m.bytes.length ≤ 120 := by
  rw [Message.bytes, List.length_append, List.length_replicate]
  cases m with
  | cmd line =>
      have text : (Message.cmd line).text.length ≤ 119 := List.length_take_le ..
      have pad : (Message.cmd line).padding = 120 - (Message.cmd line).text.length := rfl
      omega
  | ctlc => decide
  | ctlz => decide
  | ctld => decide

theorem bytes_ne_nil : m.bytes ≠ [] := by
  intro empty
  have length := @text_length m
  have none_ := congrArg List.length empty
  rw [Message.bytes, List.length_append] at none_
  rw [List.length_nil] at none_
  omega

/-- The text is done whatever stands behind it, if the text of a command is ended by a NUL or by
the end of the chunk. -/
theorem handle_text (more : List Byte) (ended : ∀ line, m = .cmd line → cString more = []) :
    yashdHandleMsg (cString (m.text ++ more)) = some m.act := by
  have split : cString (m.text ++ more) = m.text ++ cString more :=
    List.takeWhile_append_of_pos text_no_nul
  rw [split]
  cases m with
  | cmd line =>
      rw [ended line rfl, List.append_nil]
      have word : startsWith (Message.cmd line).text cmdWord = true := by
        apply List.isPrefixOf_iff_prefix.mpr
        apply List.prefix_take_iff.mpr
        exact ⟨List.prefix_append _ _, by decide⟩
      unfold yashdHandleMsg
      rw [if_pos word]
      rfl
  | ctlc => rfl
  | ctlz => rfl
  | ctld => rfl

theorem c_string_replicate (n : Nat) : cString (List.replicate n 0) = [] := by
  cases n with
  | zero => rfl
  | succ n => rfl

theorem handle_bytes : yashdHandleMsg (cString m.bytes) = some m.act :=
  handle_text _ fun _ _ => c_string_replicate _

/-- A message is done only for a string that is as long as its text. -/
theorem handle_length {buf : List Byte} (done : yashdHandleMsg buf = some m.act) :
    m.text.length ≤ buf.length := by
  unfold yashdHandleMsg at done
  split at done
  · next word =>
    have four : 4 ≤ buf.length := (List.isPrefixOf_iff_prefix.mp word).length_le
    cases m with
    | cmd line =>
        have same := congrArg List.length (Act.cmd.inj (Option.some.inj done))
        rw [List.length_drop, List.length_drop] at same
        have long := @text_length (.cmd line)
        have text : (Message.cmd line).text = (cmdWord ++ line.bytes).take 119 := rfl
        rw [← text] at same
        omega
    | ctlc => cases done
    | ctlz => cases done
    | ctld => cases done
  · split at done
    · have six : 6 ≤ buf.length := by
        unfold yashdHandleCtl at done
        have two : ∀ word : List Byte, word.length = 2 → startsWith (buf.drop 4) word = true →
            6 ≤ buf.length := by
          intro word length starts
          have fits := (List.isPrefixOf_iff_prefix.mp starts).length_le
          rw [List.length_drop, length] at fits
          omega
        split at done
        · exact two _ rfl ‹_›
        split at done
        · exact two _ rfl ‹_›
        split at done
        · exact two _ rfl ‹_›
        · cases done
      cases m with
      | cmd line =>
          unfold yashdHandleCtl at done
          split at done
          · cases done
          split at done
          · cases done
          split at done
          · cases done
          · cases done
      | ctlc => exact six
      | ctlz => exact six
      | ctld => exact six
    · cases done

/-- A piece of a message that begins `skipped` bytes behind its start. -/
theorem piece_length {piece after : List Byte} {skipped : Nat}
    (inside : piece ++ after = m.bytes.drop skipped) :
    (cString piece).length ≤ m.text.length - skipped := by
  have textRest : cString (m.bytes.drop skipped) = m.text.drop skipped := by
    rw [Message.bytes, List.drop_append, List.drop_replicate]
    have split : cString (m.text.drop skipped ++
        List.replicate (m.padding - (skipped - m.text.length)) 0) = m.text.drop skipped ++
        cString (List.replicate (m.padding - (skipped - m.text.length)) 0) :=
      List.takeWhile_append_of_pos fun byte member => text_no_nul byte (List.mem_of_mem_drop member)
    rw [split, c_string_replicate, List.append_nil]
  have shorter : (cString piece).length ≤ (cString (piece ++ after)).length := by
    unfold cString
    rw [List.takeWhile_append]
    split
    · rw [List.length_append]
      exact Nat.le_trans (List.takeWhile_prefix _).length_le (Nat.le_add_right _ _)
    · exact Nat.le_refl _
  rw [inside, textRest, List.length_drop] at shorter
  exact shorter

/-- No piece of a message does what the message does, if it begins behind its start. -/
theorem piece_other {piece after : List Byte} {skipped : Nat} (positive : 0 < skipped)
    (inside : piece ++ after = m.bytes.drop skipped) :
    yashdHandleMsg (cString piece) ≠ some m.act := by
  intro done
  have enough := handle_length done
  have short := piece_length inside
  have long := @text_length m
  omega

/-- A first piece that does what the message does contains its text. -/
theorem piece_text {piece after : List Byte} (inside : piece ++ after = m.bytes)
    (done : yashdHandleMsg (cString piece) = some m.act) : m.text <+: piece := by
  have enough := handle_length done
  have fits : (cString piece).length ≤ piece.length :=
    (List.takeWhile_prefix (fun byte : Byte => byte ≠ 0)).length_le
  have begins : m.text <+: piece ++ after := by
    rw [inside]
    exact List.prefix_append _ _
  exact List.prefix_of_prefix_length_le begins (List.prefix_append _ _) (by omega)

end Messages

/-- `CTLD` is done only at the start of its bytes. -/
theorem handle_exit {buf : List Byte} (done : yashdHandleMsg buf = some .exit) :
    Message.ctld.text <+: buf := by
  unfold yashdHandleMsg at done
  split at done
  · cases done
  split at done
  · next word =>
    unfold yashdHandleCtl at done
    split at done
    · next ending =>
      obtain ⟨more, isBuf⟩ := List.isPrefixOf_iff_prefix.mp word
      obtain ⟨last, isRest⟩ := List.isPrefixOf_iff_prefix.mp ending
      have rest : buf.drop 4 = more := by
        rw [← isBuf]
        rfl
      refine ⟨last, ?_⟩
      rw [← isBuf, ← rest, ← isRest]
      rfl
    split at done
    · cases done
    split at done
    · cases done
    · cases done
  · cases done

/-- The byte `d` is in no other control message. -/
theorem ctl_no_d {msgs : List Message} (controls : ∀ m ∈ msgs, m = .ctlc ∨ m = .ctlz) :
    (100 : Byte) ∉ flat msgs := by
  intro inside
  obtain ⟨m, member, byte⟩ := List.mem_flatMap.mp inside
  rcases controls m member with rfl | rfl
  · exact absurd byte (by decide)
  · exact absurd byte (by decide)

theorem exit_once {msgs : List Message} (controls : ∀ m ∈ msgs, m = .ctlc ∨ m = .ctlz)
    {before piece after : List Byte} (some_ : before ≠ [])
    (stream : before ++ (piece ++ after) = Message.ctld.bytes ++ flat msgs) :
    yashdHandleMsg (cString piece) ≠ some .exit := by
  intro done
  obtain ⟨more, isString⟩ := handle_exit done
  obtain ⟨last, isPiece⟩ := List.takeWhile_prefix (fun byte : Byte => byte ≠ 0) (l := piece)
  -- the `d` of the piece is at least five bytes behind the start
  have here : (100 : Byte) ∈ (before ++ (piece ++ after)).drop 5 := by
    cases before with
    | nil => exact absurd rfl some_
    | cons first rest =>
        have starts : piece = Message.ctld.text ++ (more ++ last) := by
          rw [← isPiece, ← List.append_assoc, isString]
          rfl
        have length : (first :: rest ++ Message.ctld.text.take 4).length = rest.length + 5 := by
          rw [List.length_append, List.length_cons]
          rfl
        have parts : first :: rest ++ (piece ++ after) =
            (first :: rest ++ Message.ctld.text.take 4) ++ (100 :: 10 :: (more ++ last ++ after)) := by
          rw [starts]
          simp [Message.text, ctlWord]
        rw [parts, List.drop_append]
        apply List.mem_append_right
        have small : 5 - (first :: rest ++ Message.ctld.text.take 4).length = 0 := by omega
        rw [small, List.drop_zero]
        exact List.mem_cons_self
  rw [stream, List.drop_append] at here
  rcases List.mem_append.mp here with own | other
  · exact absurd own (by decide)
  · exact ctl_no_d controls (List.mem_of_mem_drop other)

theorem expected_cons {m : Message} {msgs : List Message} (stays : m ≠ .ctld) :
    expected (m :: msgs) = m.act :: expected msgs := by
  cases m with
  | ctld => exact absurd rfl stays
  | _ => rfl

theorem from_client_tail {m : Message} {msgs : List Message} (sent : FromClient (m :: msgs))
    (stays : m ≠ .ctld) : FromClient msgs := by
  cases m with
  | ctld => exact absurd rfl stays
  | _ => exact sent

/-- What the loop finds in a chunk, and what it has done at the end. -/
theorem yash_thread_cases {chunk : List Byte} {chunks : List (List Byte)} {acts : List Act}
    (ran : yashThread (chunk :: chunks) = some acts) :
    chunk.length < bufsize ∧
      (yashdHandleMsg (cString chunk) = none ∧ yashThread chunks = some acts ∨
      yashdHandleMsg (cString chunk) = some .exit ∧ acts = [.exit] ∨
      ∃ act later, act ≠ .exit ∧ yashdHandleMsg (cString chunk) = some act ∧
        yashThread chunks = some later ∧ acts = act :: later) := by
  unfold yashThread at ran
  split at ran
  · cases ran
  · next small =>
    refine ⟨Nat.lt_of_not_le small, ?_⟩
    split at ran
    · next silent => exact .inl ⟨silent, ran⟩
    · next exits =>
      cases ran
      exact .inr (.inl ⟨exits, rfl⟩)
    · next act stays done =>
      obtain ⟨later, after, eq⟩ := Option.map_eq_some_iff.mp ran
      exact .inr (.inr ⟨act, later, stays, done, after, eq.symm⟩)

theorem act_exit {m : Message} : m.act = .exit ↔ m = .ctld := by
  cases m <;> simp [Message.act]

/-- Bytes that end a stream: they end what follows the first part, or begin inside of it. -/
theorem cut_cases {α : Type*} {before piece rest first after : List α}
    (stream : before ++ (piece ++ rest) = first ++ after) :
    (∃ extra, extra ≠ [] ∧ extra ++ rest = after) ∨
      ∃ left, piece ++ left = first.drop before.length ∧ left ++ after = rest := by
  rw [← List.append_assoc] at stream
  rcases List.append_eq_append_iff.mp stream with ⟨left, isFirst, isRest⟩ | ⟨extra, isPiece, isAfter⟩
  · refine .inr ⟨left, ?_, isRest.symm⟩
    rw [isFirst, List.append_assoc, List.drop_left]
  · by_cases empty : extra = []
    · refine .inr ⟨[], ?_, ?_⟩
      · rw [empty, List.append_nil] at isPiece
        rw [← isPiece, List.drop_left, List.append_nil]
      · rw [isAfter, empty]
        rfl
    · exact .inl ⟨extra, empty, isAfter.symm⟩

/-- Chunks that begin behind the start of the messages do not end with all that is expected. -/
theorem late_not_expected (msgs : List Message) (sent : FromClient msgs) (some_ : msgs ≠ []) :
    ∀ (chunks : List (List Byte)) (before : List Byte) (acts : List Act), before ≠ [] →
      before ++ chunks.flatten = flat msgs → yashThread chunks = some acts →
      ¬expected msgs <:+ acts := by
  induction msgs with
  | nil => exact absurd rfl some_
  | cons m msgs ih =>
      intro chunks
      induction chunks with
      | nil =>
          intro before acts _ _ ran ends
          cases ran
          have none_ := List.suffix_nil.mp ends
          cases m <;> cases none_
      | cons chunk chunks chunksIh =>
          intro before acts started stream ran ends
          rw [List.flatten_cons] at stream
          have skips : before ++ chunk ≠ [] := by
            intro empty
            exact started (List.append_eq_nil_iff.mp empty).1
          have onward : before ++ chunk ++ chunks.flatten = flat (m :: msgs) := by
            rw [List.append_assoc]
            exact stream
          have start : 0 < before.length := List.length_pos_iff.mpr started
          obtain ⟨_, ⟨_, after⟩ | ⟨exits, isExit⟩ | ⟨act, later, stays, done, after, isActs⟩⟩ :=
            yash_thread_cases ran
          · exact chunksIh (before ++ chunk) acts skips onward after ends
          · rw [isExit] at ends
            have isCtld : m = .ctld := by
              by_contra other
              rw [expected_cons other, List.suffix_cons_iff] at ends
              rcases ends with same | none_
              · exact other (act_exit.mp (List.cons.inj same).1)
              · cases List.suffix_nil.mp none_
            subst isCtld
            exact exit_once sent started stream exits
          · rw [isActs, List.suffix_cons_iff] at ends
            rcases ends with same | deeper
            · have other : m ≠ .ctld := by
                rintro rfl
                exact stays (List.cons.inj same).1.symm
              rw [expected_cons other] at same
              obtain ⟨sameAct, sameLater⟩ := List.cons.inj same
              rcases cut_cases stream with ⟨extra, extraSome, isRest⟩ | ⟨left, inside, _⟩
              · have more : msgs ≠ [] := by
                  rintro rfl
                  exact extraSome (List.append_eq_nil_iff.mp isRest).1
                apply ih (from_client_tail sent other) more chunks extra later extraSome isRest after
                exact ⟨[], (List.nil_append _).trans sameLater⟩
              · rw [← sameAct] at done
                exact piece_other start inside done
            · exact chunksIh (before ++ chunk) later skips onward after deeper

/-- So chunks that do all that is expected begin where the messages begin, or before. -/
theorem begins_in_padding {msgs : List Message} (sent : FromClient msgs) {chunks : List (List Byte)}
    {before piece first : List Byte} (stream : before ++ (piece ++ chunks.flatten) = first ++ flat msgs)
    (ran : yashThread chunks = some (expected msgs)) :
    ∃ left, piece ++ left = first.drop before.length ∧ left ++ flat msgs = chunks.flatten := by
  rcases cut_cases stream with ⟨extra, extraSome, isRest⟩ | ⟨left, inside, rest⟩
  · have more : msgs ≠ [] := by
      rintro rfl
      exact extraSome (List.append_eq_nil_iff.mp isRest).1
    exact absurd (List.suffix_refl _)
      (late_not_expected msgs sent more chunks extra _ extraSome isRest ran)
  · exact ⟨left, inside, rest⟩

/-- Chunks of padding do nothing, and the next message begins a chunk. -/
theorem padding_chunks {msgs : List Message} (sent : FromClient msgs) :
    ∀ (chunks : List (List Byte)) (pad : Nat), (∀ chunk ∈ chunks, chunk ≠ []) →
      chunks.flatten = List.replicate pad 0 ++ flat msgs →
      yashThread chunks = some (expected msgs) →
      ∃ later rest, chunks = later ++ rest ∧ later.flatten = List.replicate pad 0 ∧
        rest.flatten = flat msgs ∧ yashThread rest = some (expected msgs) := by
  intro chunks
  induction chunks with
  | nil =>
      intro pad _ stream ran
      obtain ⟨noPad, noMore⟩ := List.append_eq_nil_iff.mp stream.symm
      exact ⟨[], [], rfl, noPad.symm, noMore.symm, ran⟩
  | cons chunk chunks ih =>
      intro pad full stream ran
      cases pad with
      | zero => exact ⟨[], chunk :: chunks, rfl, rfl, stream, ran⟩
      | succ pad =>
          -- the chunk begins with a NUL
          obtain ⟨byte, tail, isChunk⟩ := List.exists_cons_of_ne_nil (full chunk List.mem_cons_self)
          have isNul : byte = 0 := by
            rw [List.flatten_cons, isChunk, List.replicate_succ] at stream
            exact (List.cons.inj stream).1
          have silent : yashdHandleMsg (cString chunk) = none := by
            rw [isChunk, isNul]
            rfl
          have after : yashThread chunks = some (expected msgs) := by
            obtain ⟨_, ⟨_, after⟩ | ⟨exits, _⟩ | ⟨_, _, _, done, _, _⟩⟩ := yash_thread_cases ran
            · exact after
            · rw [silent] at exits
              cases exits
            · rw [silent] at done
              cases done
          obtain ⟨left, inside, rest⟩ := @begins_in_padding msgs sent chunks [] chunk
            (List.replicate (pad + 1) 0) stream after
          rw [List.length_nil, List.drop_zero] at inside
          have leftPad : left = List.replicate left.length 0 := by
            apply List.eq_replicate_of_mem
            intro item member
            have there : item ∈ List.replicate (pad + 1) (0 : Byte) := by
              rw [← inside]
              exact List.mem_append_right _ member
            exact List.eq_of_mem_replicate there
          rw [leftPad] at rest
          obtain ⟨later, remaining, split, isPad, isFlat, ranRest⟩ := ih left.length
            (fun other member => full other (List.mem_cons_of_mem _ member)) rest.symm after
          refine ⟨chunk :: later, remaining, ?_, ?_, isFlat, ranRest⟩
          · rw [split]
            rfl
          · rw [List.flatten_cons, isPad, ← leftPad]
            exact inside

/-- Each message in a chunk of its own. -/
theorem own_chunks (msgs : List Message) :
    yashThread (msgs.map Message.bytes) = some (expected msgs) := by
  induction msgs with
  | nil => rfl
  | cons m msgs ih =>
      have small : ¬bufsize ≤ m.bytes.length := by
        have length := @bytes_length m
        unfold bufsize
        omega
      rw [List.map_cons]
      unfold yashThread
      rw [if_neg small, handle_bytes, ih]
      cases m <;> rfl

theorem aligned_expected {msgs : List Message} {chunks : List (List Byte)}
    (aligned : Aligned msgs chunks) : yashThread chunks = some (expected msgs) := by
  induction aligned with
  | nil => rfl
  | exit begins small =>
      obtain ⟨more, rfl⟩ := begins
      unfold yashThread
      rw [if_neg (Nat.not_le_of_lt small), handle_text more fun _ isCmd => (by cases isCmd)]
      rfl
  | @message m msgs first later chunks stays begins all rest ih =>
      obtain ⟨more, rfl⟩ := begins
      -- what follows the text is padding
      rw [List.flatten_cons, List.append_assoc, Message.bytes] at all
      have padding := List.append_cancel_left all
      have nul : ∀ byte ∈ more ++ later.flatten, byte = 0 := by
        rw [padding]
        exact fun byte member => List.eq_of_mem_replicate member
      have ended : cString more = [] := by
        rw [List.eq_replicate_of_mem fun byte member => nul byte (List.mem_append_left _ member)]
        exact c_string_replicate _
      have short : (m.text ++ more).length + later.flatten.length ≤ 120 := by
        have total := @bytes_length m
        rw [Message.bytes, ← padding, List.length_append, List.length_append] at total
        rw [List.length_append]
        omega
      have silent : ∀ rest : List (List Byte), yashThread (later ++ rest) = yashThread rest := by
        intro rest
        have small : ∀ chunk ∈ later, ¬bufsize ≤ chunk.length := by
          intro chunk member
          have part := List.Sublist.length_le (List.sublist_flatten_of_mem member)
          unfold bufsize
          omega
        have zero : ∀ chunk ∈ later, cString chunk = [] := by
          intro chunk member
          rw [List.eq_replicate_of_mem fun byte inside => nul byte
            (List.mem_append_right _ (List.mem_flatten_of_mem member inside))]
          exact c_string_replicate _
        clear ended short padding all nul
        induction later with
        | nil => rfl
        | cons chunk later laterIh =>
            rw [List.cons_append, yashThread, if_neg (small chunk List.mem_cons_self),
              zero chunk List.mem_cons_self]
            exact laterIh (fun other member => small other (List.mem_cons_of_mem _ member))
              fun other member => zero other (List.mem_cons_of_mem _ member)
      have small : ¬bufsize ≤ (m.text ++ more).length := by
        unfold bufsize
        omega
      rw [List.cons_append]
      unfold yashThread
      rw [if_neg small, handle_text more fun _ _ => ended, silent, ih, expected_cons stays]
      cases m with
      | ctld => exact absurd rfl stays
      | _ => rfl

theorem aligned_of_expected (msgs : List Message) (sent : FromClient msgs) :
    ∀ chunks : List (List Byte), (∀ chunk ∈ chunks, chunk ≠ []) → chunks.flatten = flat msgs →
      yashThread chunks = some (expected msgs) → Aligned msgs chunks := by
  induction msgs with
  | nil =>
      intro chunks full stream _
      cases chunks with
      | nil => exact .nil
      | cons chunk chunks =>
          rw [List.flatten_cons] at stream
          exact absurd (List.append_eq_nil_iff.mp stream).1 (full chunk List.mem_cons_self)
  | cons m msgs ih =>
      intro chunks full stream ran
      cases chunks with
      | nil =>
          have none_ := List.append_eq_nil_iff.mp stream.symm
          exact absurd none_.1 bytes_ne_nil
      | cons chunk chunks =>
          have fullLater : ∀ other ∈ chunks, other ≠ [] :=
            fun other member => full other (List.mem_cons_of_mem _ member)
          rw [List.flatten_cons] at stream
          obtain ⟨small, ⟨_, after⟩ | ⟨exits, isExit⟩ | ⟨act, later, stays, done, after, isActs⟩⟩ :=
            yash_thread_cases ran
          · -- the first message would have to be done later
            exact absurd (List.suffix_refl _) (late_not_expected (m :: msgs) sent (List.cons_ne_nil _ _)
              chunks chunk _ (full chunk List.mem_cons_self) stream after)
          · have isCtld : m = .ctld := by
              by_contra other
              rw [expected_cons other] at isExit
              exact other (act_exit.mp (List.cons.inj isExit).1)
            subst isCtld
            exact .exit ((handle_exit exits).trans (List.takeWhile_prefix _)) small
          · have other : m ≠ .ctld := by
              rintro rfl
              exact stays (List.cons.inj isActs).1.symm
            rw [expected_cons other] at isActs
            obtain ⟨sameAct, sameLater⟩ := List.cons.inj isActs
            rw [← sameLater] at after
            have tail := from_client_tail sent other
            obtain ⟨left, inside, rest⟩ :=
              @begins_in_padding msgs tail chunks [] chunk m.bytes stream after
            rw [List.length_nil, List.drop_zero] at inside
            rw [← sameAct] at done
            have begins := piece_text inside done
            obtain ⟨more, isChunk⟩ := begins
            -- what the chunk leaves of the message is padding
            have leftPad : left = List.replicate left.length 0 := by
              rw [← isChunk, List.append_assoc, Message.bytes] at inside
              have padding := List.append_cancel_left inside
              apply List.eq_replicate_of_mem
              intro byte member
              have there : byte ∈ List.replicate m.padding (0 : Byte) := by
                rw [← padding]
                exact List.mem_append_right _ member
              exact List.eq_of_mem_replicate there
            rw [leftPad] at rest
            obtain ⟨pads, remaining, split, isPad, isFlat, ranRest⟩ :=
              padding_chunks tail chunks left.length fullLater rest.symm after
            rw [split]
            refine Aligned.message other ⟨more, isChunk⟩ ?_ (ih tail remaining ?_ isFlat ranRest)
            · rw [List.flatten_cons, isPad, ← leftPad]
              exact inside
            · intro piece member
              apply fullLater
              rw [split]
              exact List.mem_append_right _ member

/-- Chunks that are aligned with the messages do what the messages in chunks of their own do, and
nothing is stored outside of the buffer; and for what `client.c` can send no other chunks do. -/
theorem framing_kept_iff (msgs : List Message) (chunks : List (List Byte)) :
    (Aligned msgs chunks →
      yashThread chunks = yashThread (msgs.map Message.bytes) ∧ (yashThread chunks).isSome = true) ∧
    (FromClient msgs → Delivered msgs chunks →
      (yashThread chunks = yashThread (msgs.map Message.bytes) ∧ (yashThread chunks).isSome = true ↔
        Aligned msgs chunks)) := by
  have enough : Aligned msgs chunks →
      yashThread chunks = yashThread (msgs.map Message.bytes) ∧
        (yashThread chunks).isSome = true := by
    intro aligned
    have all := aligned_expected aligned
    rw [own_chunks, all]
    exact ⟨rfl, rfl⟩
  refine ⟨enough, fun sent delivered => ⟨fun same => ?_, enough⟩⟩
  rw [own_chunks] at same
  exact aligned_of_expected msgs sent chunks delivered.some_ delivered.bytes same.1

/-- A command in three chunks, the second and third of padding, and two control messages. -/
theorem framing_kept_iff_split :
    ∃ line : Line,
      let msgs := [.cmd line, .ctlc, .ctld]
      let chunks := [cmdWord ++ line.bytes ++ [0], List.replicate 100 0, List.replicate 12 0,
        Message.ctlc.bytes, Message.ctld.bytes]
      FromClient msgs ∧ Delivered msgs chunks ∧
        (yashThread chunks = yashThread (msgs.map Message.bytes) ∧
          (yashThread chunks).isSome = true ↔ Aligned msgs chunks) := by
  -- "ls\n"
  let line : Line := { bytes := [108, 115, 10], noNul := by decide }
  have sent : FromClient [.cmd line, .ctlc, .ctld] := fun m impossible => (by cases impossible)
  have delivered : Delivered [.cmd line, .ctlc, .ctld]
      [cmdWord ++ line.bytes ++ [0], List.replicate 100 0, List.replicate 12 0,
        Message.ctlc.bytes, Message.ctld.bytes] := ⟨by decide, by decide, by decide⟩
  exact ⟨line, sent, delivered, (framing_kept_iff _ _).2 sent delivered⟩

/-- Two control messages in one chunk, of which the second is lost; and nine commands of which the
first chunk brings 1024 bytes. -/
theorem merged_messages_are_lost :
    (Delivered [.ctlc, .ctlz] [Message.ctlc.bytes ++ Message.ctlz.bytes] ∧
      yashThread [Message.ctlc.bytes ++ Message.ctlz.bytes] = some [.ctl .int] ∧
      yashThread ([Message.ctlc, Message.ctlz].map Message.bytes) =
        some [.ctl .int, .ctl .stop]) ∧
    ∃ line : Line, ∃ chunks, Delivered (List.replicate 9 (.cmd line)) chunks ∧
      yashThread chunks = none := by
  refine ⟨⟨⟨by decide, by decide, by decide⟩, by decide, by decide⟩, ?_⟩
  let line : Line := { bytes := [108, 115, 10], noNul := by decide }
  refine ⟨line, [(flat (List.replicate 9 (.cmd line))).take 1024,
    (flat (List.replicate 9 (.cmd line))).drop 1024], ⟨?_, ?_, ?_⟩, ?_⟩
  · rw [List.flatten_cons, List.flatten_cons, List.flatten_nil, List.append_nil,
      List.take_append_drop]
  · decide +kernel
  · decide +kernel
  · decide +kernel

end UtSystems.Yashd.Framing
