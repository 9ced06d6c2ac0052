import Mathlib.Tactic.Common

/-!
# Programs that return in a state with a property

`Returns program state post` is total: the program runs to its end from `state`,
raises nothing, and its value and last state satisfy `post`. Specifications of
programs with a state and exceptions are stated with it and composed by
`returns_bind`. `Ensures` is partial: it says the same of the runs that raise nothing.
`Ends` also says which errors can be raised.
-/

namespace UtSystems.Lib.Effects

set_option autoImplicit false

universe u

variable {Error State Value Result : Type u}

def Returns (program : EStateM Error State Value) (state : State)
    (post : Value → State → Prop) : Prop :=
  ∃ value next, program state = .ok value next ∧ post value next

variable {program : EStateM Error State Value} {state : State}

theorem returns_pure {value : Value} {post : Value → State → Prop} (holds : post value state) :
    Returns (pure value : EStateM Error State Value) state post :=
  ⟨value, state, rfl, holds⟩

theorem returns_mono {strong weak : Value → State → Prop}
    (ran : Returns program state strong)
    (weaker : ∀ value next, strong value next → weak value next) :
    Returns program state weak := by
  obtain ⟨value, next, result, holds⟩ := ran
  exact ⟨value, next, result, weaker value next holds⟩

/-- A sequence goes on from where its first part has returned. -/
theorem bind_run {rest : Value → EStateM Error State Result} {value : Value} {next : State}
    (ran : program state = .ok value next) : (program >>= rest) state = rest value next := by
  change EStateM.bind program rest state = _
  simp only [EStateM.bind, ran]

theorem returns_bind {middle : Value → State → Prop} {post : Result → State → Prop}
    {rest : Value → EStateM Error State Result} (ran : Returns program state middle)
    (then_ : ∀ value next, middle value next → Returns (rest value) next post) :
    Returns (program >>= rest) state post := by
  obtain ⟨value, next, result, holds⟩ := ran
  obtain ⟨final, last, finish, ends⟩ := then_ value next holds
  exact ⟨final, last, (bind_run result).trans finish, ends⟩

/-- The first part of a sequence has been seen to return. -/
theorem returns_after {post : Result → State → Prop} {rest : Value → EStateM Error State Result}
    {value : Value} {next : State} (ran : program state = .ok value next)
    (then_ : Returns (rest value) next post) : Returns (program >>= rest) state post := by
  refine @returns_bind _ _ _ _ program state (fun result last => result = value ∧ last = next)
    post rest ⟨value, next, ran, rfl, rfl⟩ ?_
  rintro _ _ ⟨rfl, rfl⟩
  exact then_

theorem returns_get {post : Result → State → Prop} {rest : State → EStateM Error State Result}
    (then_ : Returns (rest state) state post) : Returns (get >>= rest) state post := then_

theorem returns_set {next : State} {post : Result → State → Prop}
    {rest : PUnit → EStateM Error State Result} (then_ : Returns (rest ⟨⟩) next post) :
    Returns (set next >>= rest) state post := then_

theorem returns_modify {change : State → State} {post : Result → State → Prop}
    {rest : PUnit → EStateM Error State Result}
    (then_ : Returns (rest ⟨⟩) (change state) post) :
    Returns (modify change >>= rest) state post := then_

theorem returns_modify_last {change : State → State} {post : PUnit → State → Prop}
    (holds : post ⟨⟩ (change state)) :
    Returns (modify change : EStateM Error State PUnit) state post :=
  ⟨⟨⟩, change state, rfl, holds⟩

theorem returns_and {one two : Value → State → Prop} (first : Returns program state one)
    (second : Returns program state two) :
    Returns program state fun value next => one value next ∧ two value next := by
  obtain ⟨value, next, result, holds⟩ := first
  obtain ⟨other, last, found, also⟩ := second
  rw [result] at found
  cases found
  exact ⟨value, next, result, holds, also⟩

/-- A program whose result is there when it is run. -/
theorem ok_of_run {value : Value} (some_ : program.run' state = some value) :
    ∃ next, program state = .ok value next := by
  unfold EStateM.run' EStateM.run at some_
  cases ran : program state with
  | ok other next =>
      rw [ran] at some_
      cases some_
      exact ⟨next, rfl⟩
  | error error last =>
      rw [ran] at some_
      cases some_

/-- A sequence that returns has gone through both its parts. -/
theorem bind_ok {rest : Value → EStateM Error State Result} {final : Result} {last : State}
    (ran : (program >>= rest) state = .ok final last) :
    ∃ value next, program state = .ok value next ∧ rest value next = .ok final last := by
  change EStateM.bind program rest state = _ at ran
  cases result : program state with
  | ok value next =>
      simp only [EStateM.bind, result] at ran
      exact ⟨value, next, rfl, ran⟩
  | error error next =>
      simp only [EStateM.bind, result] at ran
      cases ran

/-- What a program that returns has returned. -/
theorem returns_ok {value : Value} {next : State} {post : Value → State → Prop}
    (ran : Returns program state post) (result : program state = .ok value next) :
    post value next := by
  obtain ⟨other, last, found, holds⟩ := ran
  rw [result] at found
  cases found
  exact holds

/-- If the program returns, its value and last state satisfy `post`. -/
def Ensures (program : EStateM Error State Value) (state : State)
    (post : Value → State → Prop) : Prop :=
  ∀ value next, program state = .ok value next → post value next

theorem ensures_returns {post : Value → State → Prop} (ran : Returns program state post) :
    Ensures program state post :=
  fun _ _ result => returns_ok ran result

theorem ensures_pure {value : Value} {post : Value → State → Prop} (holds : post value state) :
    Ensures (pure value : EStateM Error State Value) state post :=
  ensures_returns (returns_pure holds)

theorem ensures_throw {error : Error} {post : Value → State → Prop} :
    Ensures (throw error : EStateM Error State Value) state post := by
  intro value next result
  cases result

theorem ensures_bind {middle : Value → State → Prop} {post : Result → State → Prop}
    {rest : Value → EStateM Error State Result} (ran : Ensures program state middle)
    (then_ : ∀ value next, middle value next → Ensures (rest value) next post) :
    Ensures (program >>= rest) state post := by
  intro final last finish
  change EStateM.bind program rest state = _ at finish
  cases result : program state with
  | ok value next =>
      simp only [EStateM.bind, result] at finish
      exact then_ value next (ran value next result) final last finish
  | error error next =>
      simp only [EStateM.bind, result] at finish
      cases finish

/-- A sequence does not return when its first part does not. -/
theorem ensures_never {post : Result → State → Prop} {rest : Value → EStateM Error State Result}
    (never : Ensures program state fun _ _ => False) : Ensures (program >>= rest) state post :=
  ensures_bind never fun _ _ impossible => impossible.elim

theorem ensures_and {one two : Value → State → Prop} (first : Ensures program state one)
    (second : Ensures program state two) :
    Ensures program state fun value next => one value next ∧ two value next :=
  fun value next result => ⟨first value next result, second value next result⟩

/-- What holds whenever a program returns holds when it does. -/
theorem returns_ensures {one two : Value → State → Prop} (first : Returns program state one)
    (second : Ensures program state two) :
    Returns program state fun value next => one value next ∧ two value next := by
  obtain ⟨value, next, result, holds⟩ := first
  exact ⟨value, next, result, holds, second value next result⟩

theorem ensures_get {post : Result → State → Prop} {rest : State → EStateM Error State Result}
    (then_ : Ensures (rest state) state post) : Ensures (get >>= rest) state post := then_

theorem ensures_modify {change : State → State} {post : Result → State → Prop}
    {rest : PUnit → EStateM Error State Result}
    (then_ : Ensures (rest ⟨⟩) (change state) post) :
    Ensures (modify change >>= rest) state post := then_

/-- The program returns with `post`, or raises an error of a kind that is allowed. -/
def Ends (program : EStateM Error State Value) (state : State) (post : Value → State → Prop)
    (raised : Error → Prop) : Prop :=
  Returns program state post ∨ ∃ error last, program state = .error error last ∧ raised error

section Ends

variable {raised : Error → Prop}

theorem ends_returns {post : Value → State → Prop} (ran : Returns program state post) :
    Ends program state post raised := .inl ran

theorem ends_throw {error : Error} {post : Value → State → Prop} (allowed : raised error) :
    Ends (throw error : EStateM Error State Value) state post raised :=
  .inr ⟨error, state, rfl, allowed⟩

theorem ends_mono {strong weak : Value → State → Prop} {fewer : Error → Prop}
    (ran : Ends program state strong fewer)
    (weaker : ∀ value next, strong value next → weak value next)
    (more : ∀ error, fewer error → raised error) : Ends program state weak raised := by
  rcases ran with ran | ⟨error, last, result, allowed⟩
  · exact .inl (returns_mono ran weaker)
  · exact .inr ⟨error, last, result, more error allowed⟩

theorem ends_bind {middle : Value → State → Prop} {post : Result → State → Prop}
    {rest : Value → EStateM Error State Result} (ran : Ends program state middle raised)
    (then_ : ∀ value next, middle value next → Ends (rest value) next post raised) :
    Ends (program >>= rest) state post raised := by
  rcases ran with ⟨value, next, result, holds⟩ | ⟨error, last, result, allowed⟩
  · have joined : (program >>= rest) state = rest value next := bind_run result
    rcases then_ value next holds with ⟨final, last, finish, ends⟩ | ⟨error, last, finish, allowed⟩
    · exact .inl ⟨final, last, joined.trans finish, ends⟩
    · exact .inr ⟨error, last, joined.trans finish, allowed⟩
  · refine .inr ⟨error, last, ?_, allowed⟩
    change EStateM.bind program rest state = _
    simp only [EStateM.bind, result]

/-- Whatever may be raised, a program that returns has done so with `post`. -/
theorem ensures_ends {post : Value → State → Prop} (ran : Ends program state post raised) :
    Ensures program state post := by
  intro value next result
  cases ran with
  | inl returned => exact returns_ok returned result
  | inr failed =>
      obtain ⟨error, last, found, _⟩ := failed
      rw [result] at found
      cases found

theorem ends_after {post : Result → State → Prop} {rest : Value → EStateM Error State Result}
    {value : Value} {next : State} (ran : program state = .ok value next)
    (then_ : Ends (rest value) next post raised) : Ends (program >>= rest) state post raised := by
  refine @ends_bind _ _ _ _ program state raised (fun result last => result = value ∧ last = next)
    post rest (.inl ⟨value, next, ran, rfl, rfl⟩) ?_
  rintro _ _ ⟨rfl, rfl⟩
  exact then_

theorem ends_get {post : Result → State → Prop} {rest : State → EStateM Error State Result}
    (then_ : Ends (rest state) state post raised) : Ends (get >>= rest) state post raised := then_

theorem ends_modify {change : State → State} {post : Result → State → Prop}
    {rest : PUnit → EStateM Error State Result}
    (then_ : Ends (rest ⟨⟩) (change state) post raised) :
    Ends (modify change >>= rest) state post raised := then_

/-- A program that may raise nothing returns. -/
theorem returns_of_ends {post : Value → State → Prop} (ran : Ends program state post raised)
    (none_ : ∀ error, ¬raised error) : Returns program state post := by
  rcases ran with ran | ⟨error, _, _, allowed⟩
  · exact ran
  · exact absurd allowed (none_ error)

theorem ends_ok {post : Value → State → Prop} {value : Value} {next : State}
    (ran : Ends program state post raised) (result : program state = .ok value next) :
    post value next := ensures_ends ran value next result

end Ends

/-- A sequence of computations that may fail has gone through both its parts. -/
theorem except_bind_ok {first : Except Error Value} {rest : Value → Except Error Result}
    {result : Result} (done : first >>= rest = .ok result) :
    ∃ value, first = .ok value ∧ rest value = .ok result := by
  cases first with
  | error error => cases done
  | ok value => exact ⟨value, rfl, done⟩

end UtSystems.Lib.Effects
