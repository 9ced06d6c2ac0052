import UtSystems.Userprog.StoreUsers
import UtSystems.Filesys.Extraction

/-!
# Files that nobody disturbs

What a process can do to the file of another is to write to it or to remove it. In every run
without such a step, whatever the processes create, open, load, read, close or remove beside it,
a file keeps its name and its bytes on the device.
-/

namespace UtSystems.Userprog.UndisturbedFiles

open Lib.Bytes Lib.FileStore Lib.GuardedRun Filesys.Volume Filesys.Directory
open Filesys.Entries (entryAt rootPlace)
open Filesys.NamedContents (Named)
open Filesys.Ownership (contents)
open Filesys.Extraction (named_iff)
open Filesys.StoreRefinement Userprog.Elf Userprog.Descriptors Userprog.HeldFiles Userprog.HeldSteps
open Userprog.DescriptorTables (Use)
open Userprog.StoreUsers

set_option autoImplicit false

/-- The step neither removes the name nor writes to the file. -/
def Leaves (name : Name) (sector : Nat) (system : System) : Action → Prop
  | .remove _ file => file ≠ name
  | .write pid fd _ _ => ∀ process key handle, system.processes pid = some process →
      fdtFile process.fdt fd = some key → openedAt system.fs key = some handle →
      handle.file ≠ sector
  | _ => True

section Talks

variable {store after : Files} {name : Name} {sector : Nat}

theorem looks_quiet {key : Ptr} {looked : Talk} (looks : ∀ entry ∈ looked, Looks key entry.1) :
    ∀ entry ∈ looked, entry.1.Quiet name := by
  intro entry inside
  have look := looks entry inside
  cases call : entry.1 with
  | write | remove =>
      rw [call] at look
      exact absurd look id
  | create | open_ | read | seek | tell | length | denyWrite | allowWrite | close => trivial

theorem closes_quiet {keys : List Ptr} : ∀ entry ∈ closes keys, entry.1.Quiet name := by
  intro entry inside
  obtain ⟨key, _, isEntry⟩ := List.mem_map.mp inside
  rw [← isEntry]
  trivial

theorem loads_quiet {file : Name} {talk : Talk} {loaded : Loaded} (loads : Loads file talk loaded) :
    ∀ entry ∈ talk, entry.1.Quiet name := by
  intro entry inside
  cases loads with
  | missing =>
      rw [List.mem_singleton.mp inside]
      trivial
  | exited looks =>
      cases List.mem_cons.mp inside with
      | inl opens =>
          rw [opens]
          trivial
      | inr looked => exact looks_quiet looks entry looked
  | failed looks =>
      simp only [List.mem_cons, List.mem_append, List.not_mem_nil, or_false] at inside
      obtain opens | looked | closes := inside
      · rw [opens]
        trivial
      · exact looks_quiet looks entry looked
      · rw [closes]
        trivial
  | success looks =>
      simp only [List.mem_cons, List.mem_append, List.not_mem_nil, or_false] at inside
      obtain opens | looked | closes | reopens | denies := inside
      · rw [opens]
        trivial
      · exact looks_quiet looks entry looked
      · rw [closes]
        trivial
      · rw [reopens]
        trivial
      · rw [denies]
        trivial

/-- The writes of `fsutil_extract` go through one open file. -/
theorem copies_writes (key : Ptr) (sectors : Nat) (content : List Byte) :
    ∀ entry ∈ copies key sectors content, ∃ cells, entry.1 = .write key cells := by
  induction sectors generalizing content with
  | zero => exact fun _ inside => absurd inside List.not_mem_nil
  | succ sectors ih =>
      intro entry inside
      cases List.mem_cons.mp inside with
      | inl first => exact ⟨_, by rw [first]⟩
      | inr later => exact ih _ entry later

/-- What is opened after it has been created is not an older file. -/
theorem created_elsewhere {created opened : Files} {fileName : Name} {key : Ptr}
    {initial : List Byte} (sound : Sound store) (named : store.names name = some sector)
    (creates : Step store (.create fileName initial) (.success true) created)
    (opens : Step created (.open_ fileName) (.opened (some key)) opened) :
    ∃ handle, opened.opened key = some handle ∧ handle.file ≠ sector := by
  cases creates with
  | @created _ _ new absent fresh =>
      cases opens with
      | opened isNew free =>
          change Function.update store.names fileName (some new) fileName = some _ at isNew
          rw [Function.update_self] at isNew
          refine ⟨_, Function.update_self .., ?_⟩
          intro isSector
          dsimp only at isSector
          rw [Option.some.inj isNew, isSector] at fresh
          exact (sound.stored sector).mpr (.inl ⟨name, named⟩) fresh

theorem copies_keep {key : Ptr} {sectors : Nat} {content : List Byte} (sound : Sound store)
    (named : store.names name = some sector)
    (elsewhere : ∃ handle, store.opened key = some handle ∧ handle.file ≠ sector)
    (runs : Runs store (copies key sectors content) after) :
    after.names name = some sector ∧ after.content sector = store.content sector := by
  have writes := copies_writes key sectors content
  apply runs_keep sound runs named
  · intro entry inside removes
    obtain ⟨_, isWrite⟩ := writes entry inside
    rw [removes] at isWrite
    cases isWrite
  · intro entry inside written cells isWritten
    obtain ⟨_, isWrite⟩ := writes entry inside
    rw [isWritten] at isWrite
    cases isWrite
    refine ⟨elsewhere, ?_⟩
    intro other into isClose
    obtain ⟨_, isWrite⟩ := writes other into
    rw [isClose] at isWrite
    cases isWrite

/-- `fsutil_extract` writes to the file that it has created. -/
theorem extract_keeps {fileName : Name} {key : Ptr} {content initial : List Byte} {sectors : Nat}
    (sound : Sound store) (named : store.names name = some sector)
    (runs : Runs store ((.create fileName initial, .success true) ::
      (.open_ fileName, .opened (some key)) ::
      (copies key sectors content ++ [(.close key, .done)])) after) :
    after.names name = some sector ∧ after.content sector = store.content sector := by
  cases runs with
  | cons creates rest =>
      obtain ⟨made, same⟩ := step_keeps sound creates (fun same => by cases same) named id
      have soundMade := step_sound sound creates
      cases rest with
      | cons opens rest =>
          obtain ⟨found, sameOpen⟩ := step_keeps soundMade opens (fun same => by cases same) made id
          have soundOpen := step_sound soundMade opens
          obtain ⟨middle, copied, closed⟩ := runs_split rest
          obtain ⟨still, sameCopied⟩ :=
            copies_keep soundOpen found (created_elsewhere sound named creates opens) copied
          obtain ⟨ends, sameClosed⟩ :=
            runs_keep_quiet (runs_sound soundOpen copied) closed still (List.forall_mem_singleton.mpr trivial)
          exact ⟨ends, sameClosed.trans (sameCopied.trans (sameOpen.trans same))⟩

/-- What a step asks of the store does nothing to a file that the step leaves alone. -/
theorem asked_keeps {system : System} {processes : Processes} {action : Action} {reply : Reply}
    {talk : Talk} (shows_ : Shows system.fs store) (leaves : Leaves name sector system action)
    (asked : Asked system.processes action reply talk processes)
    (named : store.names name = some sector) (runs : Runs store talk after) :
    after.names name = some sector ∧ after.content sector = store.content sector := by
  have quiet := fun calm : ∀ entry ∈ talk, entry.1.Quiet name =>
    runs_keep_quiet shows_.sound runs named calm
  cases asked with
  | create alive short => exact quiet (List.forall_mem_singleton.mpr trivial)
  | createRefused alive long => exact quiet (List.forall_mem_nil _)
  | remove alive short => exact quiet (List.forall_mem_singleton.mpr leaves)
  | removeRefused alive long => exact quiet (List.forall_mem_nil _)
  | openFile alive short => exact quiet (List.forall_mem_singleton.mpr trivial)
  | openRefused alive long => exact quiet (List.forall_mem_nil _)
  | noFile alive missing => exact quiet (List.forall_mem_nil _)
  | exec alive word => exact quiet (List.forall_mem_cons.mpr ⟨trivial, closes_quiet⟩)
  | exit alive => exact quiet closes_quiet
  | killed alive => exact quiet (List.forall_mem_nil _)
  | start absent word loads => exact quiet (loads_quiet loads)
  | notStarted absent => exact quiet (List.forall_mem_nil _)
  | extract => exact extract_keeps shows_.sound named runs
  | @onFile pid process fd use key _ _ alive denoted asks =>
      cases asks with
      | close => exact quiet (List.forall_mem_singleton.mpr trivial)
      | read => exact quiet (List.forall_mem_singleton.mpr trivial)
      | seek => exact quiet (List.forall_mem_singleton.mpr trivial)
      | tell => exact quiet (List.forall_mem_singleton.mpr trivial)
      | filesize => exact quiet (List.forall_mem_singleton.mpr trivial)
      | write =>
          cases runs with
          | cons writes done =>
              cases done
              apply step_keeps shows_.sound writes (fun same => by cases same) named
              intro onIt
              obtain ⟨handle, here, isFile⟩ := onIt
              rw [shows_.opened] at here
              exact leaves process key handle alive denoted here isFile

end Talks

section Runs

variable {name : Name} {sector : Nat}

theorem named_shown {fs : FileSys} {store : Files} (shows_ : Shows fs store) :
    Named fs name sector ↔ store.names name = some sector :=
  named_iff shows_.names

theorem leaves_step {system next : System} {store : Files} {action : Action}
    (inv : Inv False False system.fs system.processes.held) (shows_ : Shows system.fs store)
    (proper : Proper action) (leaves : Leaves name sector system action)
    (named : store.names name = some sector) (taken : step system action = some next) :
    ∃ after, Inv False False next.fs next.processes.held ∧ Shows next.fs after ∧
      after.names name = some sector ∧
      contents next.fs.disk sector = contents system.fs.disk sector := by
  obtain ⟨reply, served⟩ := step_served taken
  obtain ⟨talk, after, asked, runs, showing⟩ := serve_step_talks inv shows_ proper served
  obtain ⟨still, same⟩ := asked_keeps shows_ leaves asked named runs
  refine ⟨after, step_inv inv taken, showing, still, ?_⟩
  rw [showing.content sector (.inl ⟨name, still⟩), shows_.content sector (.inl ⟨name, named⟩)] at same
  exact Option.some.inj same

theorem leaves_run {system last : System} {store : Files}
    (inv : Inv False False system.fs system.processes.held) (shows_ : Shows system.fs store)
    (named : store.names name = some sector)
    (run : Reaches step (fun state action => Proper action ∧ Leaves name sector state action)
      system last) :
    ∃ after, Inv False False last.fs last.processes.held ∧ Shows last.fs after ∧
      after.names name = some sector ∧
      contents last.fs.disk sector = contents system.fs.disk sector := by
  induction run with
  | start => exact ⟨store, inv, shows_, named, rfl⟩
  | push prior meets taken ih =>
      obtain ⟨middle, invariant_, showing, still, same⟩ := ih
      obtain ⟨after, invLast, ends, named_, step⟩ :=
        leaves_step invariant_ showing meets.1 meets.2 still taken
      exact ⟨after, invLast, ends, named_, step.trans same⟩

/-- After any run the system shows in a store. -/
theorem reaches_shows {start system : System} (boots : Boots start) (plenty : Plenty start.fs)
    (run : Reaches step (fun _ action => Proper action) start system) :
    Inv False False system.fs system.processes.held ∧ ∃ store, Shows system.fs store := by
  induction run with
  | start => exact ⟨boot_inv False False boots, emptyStore, boots_shows boots plenty⟩
  | push prior proper taken ih =>
      obtain ⟨inv, store, showing⟩ := ih
      obtain ⟨reply, served⟩ := step_served taken
      obtain ⟨talk, after, _, _, ends⟩ := serve_step_talks inv showing proper served
      exact ⟨step_inv inv taken, after, ends⟩

end Runs

/-- With memory to spare, a file that has a name in the directory keeps the name and all its bytes
in every run in which nobody removes the name or writes to the file. -/
theorem undisturbed_files_stay {start system last : System} {name : Name} {sector : Nat}
    (boots : Boots start) (plenty : Plenty start.fs)
    (run : Reaches step (fun _ action => Proper action) start system)
    (named : Named system.fs name sector)
    (left : Reaches step (fun state action => Proper action ∧ Leaves name sector state action)
      system last) :
    Named last.fs name sector ∧
      contents last.fs.disk sector = contents system.fs.disk sector := by
  obtain ⟨inv, store, showing⟩ := reaches_shows boots plenty run
  obtain ⟨after, _, ends, still, same⟩ :=
    leaves_run inv showing ((named_shown showing).mp named) left
  exact ⟨(named_shown ends).mpr still, same⟩

/-- The first entry is for the file `a`, and process 1 is started from it and opens it. -/
def startsFromFile (system : System) : Bool :=
  decide ((entryAt rootPlace system.fs.disk 0).inUse ≠ 0) &&
    decide ((entryAt rootPlace system.fs.disk 0).string = [0x61]) &&
    ((step system (.start 1 [0x61] roomy)).any fun next =>
      (step next (.openFile 1 [0x61])).isSome)

theorem undisturbed_files_stay_started :
    ∃ system next last sector, step (booted 8) (.extract [0x61] zeroPageProgram) = some system ∧
      step system (.start 1 [0x61] roomy) = some next ∧
      step next (.openFile 1 [0x61]) = some last ∧ Named last.fs [0x61] sector ∧
      contents last.fs.disk sector = contents system.fs.disk sector := by
  have proper : Proper (.extract [0x61] zeroPageProgram) := ⟨by decide +kernel, by decide⟩
  have possible : (step (booted 8) (.extract [0x61] zeroPageProgram)).any startsFromFile = true := by
    decide +kernel
  rw [Option.any_eq_true] at possible
  obtain ⟨system, extracts, starts⟩ := possible
  unfold startsFromFile at starts
  simp only [Bool.and_eq_true, decide_eq_true_eq, Option.any_eq_true] at starts
  obtain ⟨⟨used, isName⟩, next, begins, opens⟩ := starts
  obtain ⟨last, opens⟩ := Option.isSome_iff_exists.mp opens
  have run : Reaches step (fun _ action => Proper action) (booted 8) system :=
    .push .start proper extracts
  obtain ⟨_, store, showing⟩ := reaches_shows eight_sectors_boot booted_plenty run
  have named := (named_shown showing).mpr
    ((showing.names.mapped [0x61] _).mpr ⟨0, ⟨by decide, used, rfl⟩, isName.symm⟩)
  have start : ∀ sector state, Proper (.start 1 [0x61] roomy) ∧
      Leaves [0x61] sector state (.start 1 [0x61] roomy) := fun _ _ => ⟨trivial, trivial⟩
  have open_ : ∀ sector state, Proper (.openFile 1 [0x61]) ∧
      Leaves [0x61] sector state (.openFile 1 [0x61]) := fun _ _ => ⟨trivial, trivial⟩
  obtain ⟨stays, same⟩ := undisturbed_files_stay eight_sectors_boot booted_plenty run named
    (.push (.push .start (start _ system) begins) (open_ _ next) opens)
  exact ⟨system, next, last, _, extracts, begins, opens, stays, same⟩

end UtSystems.Userprog.UndisturbedFiles
