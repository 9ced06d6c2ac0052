import UtSystems.Lib.Bytes
import Mathlib.Logic.Function.Basic
import Mathlib.Tactic.Common

/-!
# A store of files

Names refer to files, and handles to files and positions in them. A file keeps its name and its
content until it is removed, and its content for as long as a handle is open on it. A handle can
deny writes to its file. Which file a new name gets and which handle an open one are free.
-/

namespace UtSystems.Lib.FileStore

open Lib.Bytes

set_option autoImplicit false

structure Handle (File : Type) where
  file : File
  pos : Nat
  denies : Bool

structure Store (Name File Key Cell : Type) where
  names : Name → Option File
  content : File → Option (List Cell)
  opened : Key → Option (Handle File)

variable {Name File Key Cell : Type}

/-- The file has a name, or a handle is open on it. -/
def Store.Used (store : Store Name File Key Cell) (file : File) : Prop :=
  (∃ name, store.names name = some file) ∨
    ∃ key handle, store.opened key = some handle ∧ handle.file = file

def Store.Denied (store : Store Name File Key Cell) (file : File) : Prop :=
  ∃ key handle, store.opened key = some handle ∧ handle.file = file ∧ handle.denies = true

open Classical in
/-- Files that are not used any more are given up. -/
noncomputable def Store.collect (store : Store Name File Key Cell) : Store Name File Key Cell :=
  { store with content := fun file => if store.Used file then store.content file else none }

inductive Call (Name Key Cell : Type) where
  | create (name : Name) (initial : List Cell)
  | open_ (name : Name)
  | remove (name : Name)
  | read (key : Key) (size : Nat)
  | write (key : Key) (cells : List Cell)
  | seek (key : Key) (pos : Nat)
  | tell (key : Key)
  | length (key : Key)
  | denyWrite (key : Key)
  | allowWrite (key : Key)
  | close (key : Key)

inductive Answer (Key Cell : Type) where
  | success (result : Bool)
  | opened (key : Option Key)
  | cells (delivered : List Cell)
  | count (number : Nat)
  | done

def readFrom (content : List Cell) (size pos : Nat) : List Cell := (content.drop pos).take size

/-- Of the cells those are written that the file has room for. -/
def writeTo (content cells : List Cell) (pos : Nat) : List Cell :=
  splice content pos (cells.take (content.length - pos))

section Steps

variable [DecidableEq Name] [DecidableEq File] [DecidableEq Key]

def Store.setHandle (store : Store Name File Key Cell) (key : Key)
    (handle : Option (Handle File)) : Store Name File Key Cell :=
  { store with opened := Function.update store.opened key handle }

def Store.setContent (store : Store Name File Key Cell) (file : File)
    (content : List Cell) : Store Name File Key Cell :=
  { store with content := Function.update store.content file (some content) }

def Store.setName (store : Store Name File Key Cell) (name : Name)
    (file : Option File) : Store Name File Key Cell :=
  { store with names := Function.update store.names name file }

/-- Creating a file may fail for want of space. -/
inductive Step (store : Store Name File Key Cell) :
    Call Name Key Cell → Answer Key Cell → Store Name File Key Cell → Prop where
  | created {name : Name} {initial : List Cell} {file : File} (absent : store.names name = none)
      (new : store.content file = none) :
      Step store (.create name initial) (.success true)
        ((store.setName name (some file)).setContent file initial)
  | notCreated {name : Name} {initial : List Cell} :
      Step store (.create name initial) (.success false) store
  | opened {name : Name} {file : File} {key : Key} (named : store.names name = some file)
      (free : store.opened key = none) :
      Step store (.open_ name) (.opened (some key))
        (store.setHandle key (some { file := file, pos := 0, denies := false }))
  | notOpened {name : Name} (absent : store.names name = none) :
      Step store (.open_ name) (.opened none) store
  | removed {name : Name} {file : File} (named : store.names name = some file) :
      Step store (.remove name) (.success true) (store.setName name none).collect
  | notRemoved {name : Name} (absent : store.names name = none) :
      Step store (.remove name) (.success false) store
  | read {key : Key} {handle : Handle File} {content : List Cell} {size : Nat}
      (here : store.opened key = some handle) (holds : store.content handle.file = some content) :
      Step store (.read key size) (.cells (readFrom content size handle.pos))
        (store.setHandle key
          (some { handle with pos := handle.pos + (readFrom content size handle.pos).length }))
  | written {key : Key} {handle : Handle File} {content cells : List Cell}
      (here : store.opened key = some handle) (holds : store.content handle.file = some content)
      (allowed : ¬store.Denied handle.file) :
      Step store (.write key cells) (.count (min cells.length (content.length - handle.pos)))
        ((store.setContent handle.file (writeTo content cells handle.pos)).setHandle key
          (some { handle with
            pos := handle.pos + min cells.length (content.length - handle.pos) }))
  | refused {key : Key} {handle : Handle File} {cells : List Cell}
      (here : store.opened key = some handle) (denied : store.Denied handle.file) :
      Step store (.write key cells) (.count 0) store
  | sought {key : Key} {handle : Handle File} {pos : Nat} (here : store.opened key = some handle) :
      Step store (.seek key pos) .done (store.setHandle key (some { handle with pos := pos }))
  | told {key : Key} {handle : Handle File} (here : store.opened key = some handle) :
      Step store (.tell key) (.count handle.pos) store
  | measured {key : Key} {handle : Handle File} {content : List Cell}
      (here : store.opened key = some handle) (holds : store.content handle.file = some content) :
      Step store (.length key) (.count content.length) store
  | denies {key : Key} {handle : Handle File} (here : store.opened key = some handle) :
      Step store (.denyWrite key) .done
        (store.setHandle key (some { handle with denies := true }))
  | allows {key : Key} {handle : Handle File} (here : store.opened key = some handle) :
      Step store (.allowWrite key) .done
        (store.setHandle key (some { handle with denies := false }))
  | closed {key : Key} {handle : Handle File} (here : store.opened key = some handle) :
      Step store (.close key) .done (store.setHandle key none).collect

/-- Calls with their answers, one after the other. -/
inductive Runs : Store Name File Key Cell → List (Call Name Key Cell × Answer Key Cell) →
    Store Name File Key Cell → Prop where
  | nil {store : Store Name File Key Cell} : Runs store [] store
  | cons {store next last : Store Name File Key Cell} {call : Call Name Key Cell}
      {answer : Answer Key Cell} {rest : List (Call Name Key Cell × Answer Key Cell)}
      (first : Step store call answer next) (later : Runs next rest last) :
      Runs store ((call, answer) :: rest) last

/-- The call writes to the file. -/
def Call.Writes (store : Store Name File Key Cell) (file : File) : Call Name Key Cell → Prop
  | .write key _ => ∃ handle, store.opened key = some handle ∧ handle.file = file
  | _ => False

structure Sound (store : Store Name File Key Cell) : Prop where
  stored : ∀ file, store.content file ≠ none ↔ store.Used file
  apart : ∀ first second file, store.names first = some file → store.names second = some file →
    first = second

end Steps

section Facts

variable {store next : Store Name File Key Cell} {file : File} {key : Key} {handle : Handle File}

theorem used_opened (here : store.opened key = some handle) : store.Used handle.file :=
  .inr ⟨key, handle, here, rfl⟩

theorem collect_used : store.collect.Used file ↔ store.Used file := Iff.rfl

theorem collect_content (used : store.Used file) : store.collect.content file = store.content file :=
  if_pos used

theorem collect_unused (unused : ¬store.Used file) : store.collect.content file = none :=
  if_neg unused

/-- Giving up what is not used is enough to be sound again. -/
theorem sound_collect (stored : ∀ file, store.Used file → store.content file ≠ none)
    (apart : ∀ first second file, store.names first = some file →
      store.names second = some file → first = second) : Sound store.collect := by
  refine ⟨?_, apart⟩
  intro file
  rw [collect_used]
  constructor
  · intro holds
    by_contra unused
    exact holds (collect_unused unused)
  · intro used
    rw [collect_content used]
    exact stored file used

/-- A map that has been changed at one place, for a property that is as it was there. -/
theorem exists_update_same {Place Value : Type} [DecidableEq Place] {map : Place → Value}
    {place : Place} {value : Value} {P : Value → Prop} (same : P value ↔ P (map place)) :
    (∃ other, P (Function.update map place value other)) ↔ ∃ other, P (map other) := by
  rw [Function.exists_update_iff map fun _ found => P found, same]
  constructor
  · intro some_
    cases some_ with
    | inl here => exact ⟨place, here⟩
    | inr there =>
        obtain ⟨other, _, holds⟩ := there
        exact ⟨other, holds⟩
  · intro some_
    obtain ⟨other, holds⟩ := some_
    by_cases mine : other = place
    · rw [mine] at holds
      exact .inl holds
    · exact .inr ⟨other, mine, holds⟩

variable [DecidableEq Key]

/-- The handle stays open on its file. -/
theorem used_set_handle {change : Handle File} (here : store.opened key = some handle)
    (same : change.file = handle.file) :
    (store.setHandle key (some change)).Used file ↔ store.Used file := by
  apply or_congr Iff.rfl
  apply @exists_update_same _ _ _ store.opened key (some change) fun found =>
    ∃ handle, found = some handle ∧ handle.file = file
  simp [here, same]

/-- A new handle on a file that is in use. -/
theorem used_new_handle (free : store.opened key = none) (used : store.Used handle.file) :
    (store.setHandle key (some handle)).Used file ↔ store.Used file := by
  have opened := Function.exists_update_iff store.opened (a := key) (b := some handle)
    fun _ found => ∃ handle, found = some handle ∧ handle.file = file
  constructor
  · intro after
    cases after with
    | inl named => exact .inl named
    | inr open_ =>
        cases opened.mp open_ with
        | inl new =>
            obtain ⟨found, isHandle, isFile⟩ := new
            cases isHandle
            rw [← isFile]
            exact used
        | inr old =>
            obtain ⟨other, _, holds⟩ := old
            exact .inr ⟨other, holds⟩
  · intro before
    cases before with
    | inl named => exact .inl named
    | inr open_ =>
        obtain ⟨other, found, there, isFile⟩ := open_
        have apart : other ≠ key := by
          intro same
          rw [same, free] at there
          cases there
        exact .inr (opened.mpr (.inr ⟨other, apart, found, there, isFile⟩))

/-- A handle that goes away keeps no file in use. -/
theorem used_closed (used : (store.setHandle key none).Used file) : store.Used file := by
  have opened := Function.exists_update_iff store.opened (a := key) (b := none)
    fun _ found => ∃ handle, found = some handle ∧ handle.file = file
  refine used.imp_right fun open_ => ?_
  obtain none_ | old := opened.mp open_
  · obtain ⟨_, found, _⟩ := none_
    cases found
  · obtain ⟨other, _, holds⟩ := old
    exact ⟨other, holds⟩

theorem sound_set_handle {change : Handle File} (sound : Sound store)
    (here : store.opened key = some handle) (same : change.file = handle.file) :
    Sound (store.setHandle key (some change)) := by
  refine ⟨?_, sound.apart⟩
  intro file
  rw [used_set_handle here same]
  exact sound.stored file

end Facts

section Preservation

variable {store next : Store Name File Key Cell} {call : Call Name Key Cell}
  {answer : Answer Key Cell} {file : File}

theorem set_content_used [DecidableEq File] {content : List Cell} :
    (store.setContent file content).Used = store.Used := rfl

theorem sound_set_content [DecidableEq File] {content : List Cell} (sound : Sound store)
    (used : store.Used file) : Sound (store.setContent file content) := by
  refine ⟨?_, sound.apart⟩
  intro other
  rw [set_content_used]
  unfold Store.setContent
  dsimp only
  by_cases mine : other = file
  · rw [mine, Function.update_self]
    simp [used]
  · rw [Function.update_of_ne mine]
    exact sound.stored other

/-- A write leaves the same files in use. -/
theorem used_written [DecidableEq File] [DecidableEq Key] {key : Key} {handle change : Handle File}
    {content : List Cell} {other : File} (here : store.opened key = some handle)
    (same : change.file = handle.file) :
    ((store.setContent file content).setHandle key (some change)).Used other ↔
      store.Used other :=
  @used_set_handle _ _ _ _ (store.setContent file content) _ _ _ _ change here same

variable [DecidableEq Name]

theorem used_set_name {name : Name} (used : (store.setName name none).Used file) :
    store.Used file := by
  have names := Function.exists_update_iff store.names (a := name) (b := none)
    fun _ found => found = some file
  refine used.imp_left fun named => ?_
  obtain none_ | old := names.mp named
  · cases none_
  · obtain ⟨other, _, holds⟩ := old
    exact ⟨other, holds⟩

variable [DecidableEq File]

/-- What is in use after a file has been created. -/
theorem used_created {name : Name} {initial : List Cell} {new : File}
    (absent : store.names name = none) :
    ((store.setName name (some new)).setContent new initial).Used file ↔
      file = new ∨ store.Used file := by
  have names := Function.exists_update_iff store.names (a := name) (b := some new)
    fun _ found => found = some file
  rw [set_content_used]
  constructor
  · intro used
    cases used with
    | inr open_ => exact .inr (.inr open_)
    | inl named =>
        cases names.mp named with
        | inl isNew => exact .inl (Option.some.inj isNew).symm
        | inr old =>
            obtain ⟨other, _, holds⟩ := old
            exact .inr (.inl ⟨other, holds⟩)
  · intro used
    obtain isNew | ⟨other, isFile⟩ | open_ := used
    · exact .inl (names.mpr (.inl (by rw [isNew])))
    · have apart : other ≠ name := by
        intro same
        rw [same, absent] at isFile
        cases isFile
      exact .inl (names.mpr (.inr ⟨other, apart, isFile⟩))
    · exact .inr open_

theorem sound_created {name : Name} {initial : List Cell} {new : File} (sound : Sound store)
    (absent : store.names name = none) (fresh : store.content new = none) :
    Sound ((store.setName name (some new)).setContent new initial) := by
  have unnamed : ∀ other, store.names other ≠ some new := by
    intro other isFile
    exact (sound.stored new).mpr (.inl ⟨other, isFile⟩) fresh
  refine ⟨?_, ?_⟩
  · intro file
    rw [used_created absent]
    unfold Store.setContent Store.setName
    dsimp only
    by_cases isNew : file = new
    · rw [isNew, Function.update_self]
      simp
    · rw [Function.update_of_ne isNew]
      simp only [isNew, false_or]
      exact sound.stored file
  · intro first second file one two
    unfold Store.setContent Store.setName at one two
    dsimp only at one two
    by_cases early : first = name
    · by_cases late : second = name
      · rw [early, late]
      · rw [early, Function.update_self] at one
        rw [Function.update_of_ne late, ← one] at two
        exact absurd two (unnamed second)
    · rw [Function.update_of_ne early] at one
      by_cases late : second = name
      · rw [late, Function.update_self] at two
        rw [← two] at one
        exact absurd one (unnamed first)
      · rw [Function.update_of_ne late] at two
        exact sound.apart first second file one two

variable [DecidableEq Key]

theorem step_sound (sound : Sound store) (step : Step store call answer next) : Sound next := by
  cases step with
  | created absent new => exact sound_created sound absent new
  | notCreated => exact sound
  | opened named free =>
      refine ⟨?_, sound.apart⟩
      intro file
      rw [used_new_handle free (.inl ⟨_, named⟩)]
      exact sound.stored file
  | notOpened absent => exact sound
  | @removed name file named =>
      apply sound_collect
      · intro file used
        exact (sound.stored file).mpr (used_set_name used)
      · intro first second file one two
        unfold Store.setName at one two
        dsimp only at one two
        by_cases early : first = name
        · rw [early, Function.update_self] at one
          cases one
        · by_cases late : second = name
          · rw [late, Function.update_self] at two
            cases two
          · rw [Function.update_of_ne early] at one
            rw [Function.update_of_ne late] at two
            exact sound.apart first second file one two
  | notRemoved absent => exact sound
  | read here holds => exact sound_set_handle sound here rfl
  | written here holds allowed =>
      exact sound_set_handle (sound_set_content sound (used_opened here)) here rfl
  | refused here denied => exact sound
  | sought here => exact sound_set_handle sound here rfl
  | told here => exact sound
  | measured here holds => exact sound
  | denies here => exact sound_set_handle sound here rfl
  | allows here => exact sound_set_handle sound here rfl
  | closed here =>
      apply sound_collect
      · intro file used
        exact (sound.stored file).mpr (used_closed used)
      · exact sound.apart

/-- A call changes the content of no file but the one it writes to. -/
theorem step_content (sound : Sound store) (step : Step store call answer next)
    (before : store.Used file) (after : next.Used file) (spared : ¬call.Writes store file) :
    next.content file = store.content file := by
  cases step with
  | @created name initial new absent fresh =>
      have other : file ≠ new := by
        intro same
        rw [← same] at fresh
        exact (sound.stored file).mpr before fresh
      exact Function.update_of_ne other ..
  | removed named => exact collect_content after
  | closed here => exact collect_content after
  | @written key handle content cells here holds allowed =>
      have other : file ≠ handle.file := fun same => spared ⟨handle, here, same.symm⟩
      exact Function.update_of_ne other ..
  | notCreated | opened | notOpened | notRemoved | read | refused | sought | told | measured
  | denies | allows => rfl

/-- A handle stays open, on the same file, until it is closed. -/
theorem step_handle {key : Key} {handle : Handle File} (step : Step store call answer next)
    (unclosed : call ≠ .close key) (here : store.opened key = some handle) :
    ∃ change, next.opened key = some change ∧ change.file = handle.file := by
  have updated : ∀ (other : Key) (was change : Handle File), store.opened other = some was →
      change.file = was.file →
      ∃ found, Function.update store.opened other (some change) key = some found ∧
        found.file = handle.file := by
    intro other was change isWas same
    by_cases mine : key = other
    · rw [mine, isWas] at here
      cases here
      exact ⟨change, by rw [mine, Function.update_self], same⟩
    · exact ⟨handle, by rw [Function.update_of_ne mine]; exact here, rfl⟩
  cases step with
  | @opened name file other named free =>
      have apart : key ≠ other := by
        intro same
        rw [same, free] at here
        cases here
      exact ⟨handle, (Function.update_of_ne apart ..).trans here, rfl⟩
  | read there holds => exact updated _ _ _ there rfl
  | written there holds allowed => exact updated _ _ _ there rfl
  | sought there => exact updated _ _ _ there rfl
  | denies there => exact updated _ _ _ there rfl
  | allows there => exact updated _ _ _ there rfl
  | @closed other was there =>
      have apart : key ≠ other := by
        intro same
        exact unclosed (by rw [same])
      exact ⟨handle, (Function.update_of_ne apart ..).trans here, rfl⟩
  | created | notCreated | notOpened | removed | notRemoved | refused | told | measured =>
      exact ⟨handle, here, rfl⟩

theorem step_opened {key : Key} (step : Step store call answer next) (unclosed : call ≠ .close key)
    (open_ : store.opened key ≠ none) : next.opened key ≠ none := by
  obtain ⟨handle, here⟩ := Option.ne_none_iff_exists'.mp open_
  obtain ⟨change, still, _⟩ := step_handle step unclosed here
  rw [still]
  exact Option.some_ne_none change

theorem runs_append {middle last : Store Name File Key Cell}
    {first second : List (Call Name Key Cell × Answer Key Cell)} (early : Runs store first middle)
    (late : Runs middle second last) : Runs store (first ++ second) last := by
  induction early with
  | nil => exact late
  | cons step later ih => exact .cons step (ih late)

theorem runs_split {first second : List (Call Name Key Cell × Answer Key Cell)}
    (run : Runs store (first ++ second) next) :
    ∃ middle, Runs store first middle ∧ Runs middle second next := by
  induction first generalizing store with
  | nil => exact ⟨store, .nil, run⟩
  | cons entry first ih =>
      cases run with
      | cons step later =>
          obtain ⟨middle, early, late⟩ := ih later
          exact ⟨middle, .cons step early, late⟩

theorem runs_sound {served : List (Call Name Key Cell × Answer Key Cell)} (sound : Sound store)
    (run : Runs store served next) : Sound next := by
  induction run with
  | nil => exact sound
  | cons step later ih => exact ih (step_sound sound step)

/-- A name stays until it is removed. -/
theorem step_name {name : Name} (step : Step store call answer next)
    (kept : call ≠ .remove name) (named : store.names name = some file) :
    next.names name = some file := by
  cases step with
  | @created other initial new absent fresh =>
      have apart : name ≠ other := by
        intro same
        rw [same, absent] at named
        cases named
      unfold Store.setContent Store.setName
      dsimp only
      rw [Function.update_of_ne apart]
      exact named
  | @removed other old isOld =>
      have apart : name ≠ other := by
        intro same
        exact kept (by rw [same])
      unfold Store.collect Store.setName
      dsimp only
      rw [Function.update_of_ne apart]
      exact named
  | notCreated | opened | notOpened | notRemoved | read | written | refused | sought | told
  | measured | denies | allows | closed => exact named

/-- A named file stays as it is as long as it is not removed or written to. -/
theorem step_keeps {name : Name} (sound : Sound store) (step : Step store call answer next)
    (kept : call ≠ .remove name) (named : store.names name = some file)
    (spared : ¬call.Writes store file) :
    next.names name = some file ∧ next.content file = store.content file := by
  have still := step_name step kept named
  exact ⟨still, step_content sound step (.inl ⟨name, named⟩) (.inl ⟨name, still⟩) spared⟩

/-- The call neither writes nor removes the name. -/
def Call.Quiet (name : Name) : Call Name Key Cell → Prop
  | .write .. => False
  | .remove other => other ≠ name
  | _ => True

/-- The calls write through handles that are on other files, and stay so. -/
def Elsewhere (store : Store Name File Key Cell) (file : File)
    (served : List (Call Name Key Cell × Answer Key Cell)) : Prop :=
  ∀ entry ∈ served, ∀ key cells, entry.1 = .write key cells →
    (∃ handle, store.opened key = some handle ∧ handle.file ≠ file) ∧
      ∀ other ∈ served, other.1 ≠ .close key

theorem runs_keep {name : Name} {served : List (Call Name Key Cell × Answer Key Cell)}
    (sound : Sound store) (run : Runs store served next) (named : store.names name = some file)
    (kept : ∀ entry ∈ served, entry.1 ≠ .remove name) (elsewhere : Elsewhere store file served) :
    next.names name = some file ∧ next.content file = store.content file := by
  induction run with
  | nil => exact ⟨named, rfl⟩
  | @cons store middle last call answer rest step later ih =>
      have spared : ¬call.Writes store file := by
        intro writes
        cases call with
        | write key cells =>
            obtain ⟨⟨handle, here, other⟩, _⟩ := elsewhere _ List.mem_cons_self key cells rfl
            obtain ⟨found, there, same⟩ := writes
            rw [here] at there
            cases there
            exact other same
        | create | open_ | remove | read | seek | tell | length | denyWrite | allowWrite | close =>
            exact writes
      have after : Elsewhere middle file rest := by
        intro entry inside key cells isWrite
        obtain ⟨⟨handle, here, other⟩, unclosed⟩ :=
          elsewhere entry (List.mem_cons_of_mem _ inside) key cells isWrite
        obtain ⟨change, still, same⟩ := step_handle step (unclosed _ List.mem_cons_self) here
        refine ⟨⟨change, still, ?_⟩, fun later into => unclosed later (List.mem_cons_of_mem _ into)⟩
        rw [same]
        exact other
      obtain ⟨still, same⟩ := step_keeps sound step (kept _ List.mem_cons_self) named spared
      obtain ⟨ends, whole⟩ := ih (step_sound sound step) still
        (fun entry inside => kept entry (List.mem_cons_of_mem _ inside)) after
      exact ⟨ends, whole.trans same⟩

theorem runs_keep_quiet {name : Name} {served : List (Call Name Key Cell × Answer Key Cell)}
    (sound : Sound store) (run : Runs store served next) (named : store.names name = some file)
    (quiet : ∀ entry ∈ served, entry.1.Quiet name) :
    next.names name = some file ∧ next.content file = store.content file := by
  apply runs_keep sound run named
  · intro entry inside removes
    have calm := quiet entry inside
    rw [removes] at calm
    exact calm rfl
  · intro entry inside key cells isWrite
    have calm := quiet entry inside
    rw [isWrite] at calm
    exact absurd calm id

end Preservation

section Writes

variable {store next last : Store Name File Key Cell} {key : Key}

variable [DecidableEq Name] [DecidableEq File] [DecidableEq Key]

end Writes

end UtSystems.Lib.FileStore
