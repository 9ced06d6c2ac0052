import UtSystems.Filesys.StoreRefinement
import UtSystems.Userprog.DescriptorTables

/-!
# Processes as users of one store of files

The kernel runs the calls of all processes, `load`, and the ends of processes over one file
system. What each of these steps asks of the file system is a few requests on the names it is
given and the files its process holds, and its reply is made of their answers. So every run of the
system, with memory to spare, is a run of one store of files that the processes share.
-/

namespace UtSystems.Userprog.StoreUsers

open Lib.Bytes Lib.Effects Lib.FileStore Lib.GuardedRun Filesys.Volume Filesys.InodeData
open Filesys.Inode Filesys.Directory
open Filesys.NamedFiles (dir_open_root_returns)
open Filesys.Format (filesys_init_format_ensures)
open Filesys.SectorOwners (IdeAccepts)
open Filesys.StoreRefinement Userprog.Elf Userprog.Descriptors Userprog.HeldFiles Userprog.HeldSteps
open Userprog.DescriptorTables (Use openOwn)

set_option autoImplicit false

/-- What a process gets: the value in EAX and the bytes in its buffer. -/
abbrev Reply := DescriptorTables.Answer

def number (value : Int) : Reply := { value := value, bytes := [] }

def truth (value : Bool) : Reply := number (if value then 1 else 0)

section Serving

variable (processes : Processes) (pid : Nat)

/-- A call that may change the table of its process. -/
def onTable (call : Process → FsM (Reply × Fdt)) : Option (FsM (Reply × Processes)) :=
  (processes pid).map fun process => do
    let (reply, fdt) ← call process
    return (reply, Function.update processes pid (some { process with fdt := fdt }))

/-- A call that has no business with tables. -/
def answering (call : FsM Reply) : Option (FsM (Reply × Processes)) :=
  (processes pid).map fun _ => do
    let reply ← call
    return (reply, processes)

end Serving

/-- What a step does, with the reply to the process. -/
def serve (processes : Processes) : Action → Option (FsM (Reply × Processes))
  | .create pid file initialSize =>
      answering processes pid do return truth (← sysCreate file initialSize)
  | .remove pid file => answering processes pid do return truth (← sysRemove file)
  | .openFile pid file => onTable processes pid fun process => do
      let (fd, fdt) ← sysOpen process.fdt file
      return (number fd, fdt)
  | .filesize pid fd => onTable processes pid fun process => Use.filesize.perform process.fdt fd
  | .read pid fd size input =>
      onTable processes pid fun process => (Use.read size input).perform process.fdt fd
  | .write pid fd buffer size =>
      onTable processes pid fun process => (Use.write buffer size).perform process.fdt fd
  | .seek pid fd position =>
      onTable processes pid fun process => (Use.seek position).perform process.fdt fd
  | .tell pid fd => onTable processes pid fun process => Use.tell.perform process.fdt fd
  | .close pid fd => onTable processes pid fun process => Use.close.perform process.fdt fd
  -- the reply is that of `process_execute` if the file is there
  | .exec pid cmdLine => answering processes pid do return truth (← sysExec cmdLine)
  | action => (action.perform processes).map fun program => do
      let after ← program
      return (number 0, after)

def serveStep (system : System) (action : Action) : Option (Reply × System) :=
  match serve system.processes action with
  | none => none
  | some program =>
      match program system.fs with
      | .ok (reply, processes) fs => some (reply, { fs := fs, processes := processes })
      | .error _ _ => none

/-- Steps with their replies, one after the other. -/
inductive Served : System → List (Action × Reply) → System → Prop where
  | nil {system : System} : Served system [] system
  | cons {system next last : System} {action : Action} {reply : Reply}
      {rest : List (Action × Reply)} (first : serveStep system action = some (reply, next))
      (later : Served next rest last) : Served system ((action, reply) :: rest) last

/-- Calls of the store with their answers. -/
abbrev Talk := List (Call Name Ptr Byte × Answer Ptr Byte)

/-- A name that `sys_create`, `sys_remove` and `sys_open` take. -/
def Short (file : Name) : Prop := ¬(nameMax < file.length ∨ file.length = 0)

/-- A call that reads a file and moves about in it. -/
def Looks (key : Ptr) : Call Name Ptr Byte → Prop
  | .read file _ => file = key
  | .seek file _ => file = key
  | .length file => file = key
  | _ => False

/-- What `load` asks for: the file is read, closed, and opened again for the process. -/
inductive Loads (name : Name) : Talk → Loaded → Prop where
  | missing : Loads name [(.open_ name, .opened none)] .failed
  | exited {key : Ptr} {looked : Talk} (looks : ∀ entry ∈ looked, Looks key entry.1) :
      Loads name ((.open_ name, .opened (some key)) :: looked) .exited
  | failed {key : Ptr} {looked : Talk} (looks : ∀ entry ∈ looked, Looks key entry.1) :
      Loads name ((.open_ name, .opened (some key)) :: (looked ++ [(.close key, .done)])) .failed
  | success {key fileToExe : Ptr} {looked : Talk} (looks : ∀ entry ∈ looked, Looks key entry.1) :
      Loads name ((.open_ name, .opened (some key)) :: (looked ++ [(.close key, .done),
        (.open_ name, .opened (some fileToExe)), (.denyWrite fileToExe, .done)]))
        (.success fileToExe)

/-- The writes of `fsutil_extract`. -/
def copies (key : Ptr) : Nat → List Byte → Talk
  | 0, _ => []
  | sectors + 1, content =>
      (.write key (content.take blockSectorSize),
        .count (content.take blockSectorSize).length) ::
      copies key sectors (content.drop blockSectorSize)

/-- The files that a process has open. -/
def keysOf (process : Process) : List Ptr :=
  (List.range 128).filterMap (fun index : Nat => fdtFile process.fdt index) ++
    process.fileToExe.toList

def closes (keys : List Ptr) : Talk := keys.map fun key => (.close key, .done)

/-- What the call on a file asks for, and its reply. -/
inductive Asks (key : Ptr) : Use → Reply → Talk → Prop where
  | close : Asks key .close (number 0) [(.close key, .done)]
  | read {size : Word} {input : Nat → Byte} {bytes : List Byte} :
      Asks key (.read size input) { value := bytes.length, bytes := bytes }
        [(.read key size.toInt.toNat, .cells bytes)]
  | write {buffer : Nat → Byte} {size : Word} {written : Nat} :
      Asks key (.write buffer size) (number written)
        [(.write key (slice buffer 0 size.toInt.toNat), .count written)]
  | seek {position : Word} :
      Asks key (.seek position) (number 0) [(.seek key position.toInt.toNat, .done)]
  | tell {pos : Nat} : Asks key .tell (number pos) [(.tell key, .count pos)]
  | filesize {length : Nat} : Asks key .filesize (number length) [(.length key, .count length)]

/-- The table after the call. -/
def tableAfter (fdt : Fdt) (fd : Int) : Use → Fdt
  | .close => Function.update fdt fd.toNat none
  | _ => fdt

/-- The reply to a call on a descriptor without a file: the console or nothing. -/
def replyWithout (fd : Int) : Use → Reply
  | .read size input =>
      if fd = 1 then number 0
      else if fd = 0 then
        { value := size.toInt, bytes := (List.range size.toNat).map input }
      else number (-1)
  | .write _ size => if fd = 0 then number 0 else if fd = 1 then number size.toInt else number (-1)
  | .filesize => number (-1)
  | .close => number 0
  | .seek _ => number 0
  | .tell => number 0

/-- The descriptor and the table after `filesys_open` has found a file or not. -/
def entered (fdt : Fdt) : Option Ptr → Int × Fdt
  | some key => addFdtEntry fdt key
  | none => (-1, fdt)

def afterLoad (processes : Processes) (pid : Nat) : Loaded → Processes
  | .success fileToExe =>
      Function.update processes pid (some { fdt := fun _ => none, fileToExe := some fileToExe })
  | _ => processes

/-- What a step asks of the store, its reply, and the processes after it. -/
inductive Asked (processes : Processes) : Action → Reply → Talk → Processes → Prop where
  | create {pid : Nat} {process : Process} {file : Name} {initialSize : Word} {made : Bool}
      (alive : processes pid = some process) (short : Short file) :
      Asked processes (.create pid file initialSize) (truth made)
        [(.create file (List.replicate initialSize.toInt.toNat 0), .success made)] processes
  | createRefused {pid : Nat} {process : Process} {file : Name} {initialSize : Word}
      (alive : processes pid = some process) (long : ¬Short file) :
      Asked processes (.create pid file initialSize) (truth false) [] processes
  | remove {pid : Nat} {process : Process} {file : Name} {removed : Bool}
      (alive : processes pid = some process) (short : Short file) :
      Asked processes (.remove pid file) (truth removed) [(.remove file, .success removed)] processes
  | removeRefused {pid : Nat} {process : Process} {file : Name}
      (alive : processes pid = some process) (long : ¬Short file) :
      Asked processes (.remove pid file) (truth false) [] processes
  | openFile {pid : Nat} {process : Process} {file : Name} {found : Option Ptr}
      (alive : processes pid = some process) (short : Short file) :
      Asked processes (.openFile pid file) (number (entered process.fdt found).1)
        [(.open_ file, .opened found)]
        (Function.update processes pid
          (some { process with fdt := (entered process.fdt found).2 }))
  | openRefused {pid : Nat} {process : Process} {file : Name}
      (alive : processes pid = some process) (long : ¬Short file) :
      Asked processes (.openFile pid file) (number (-1)) [] processes
  | onFile {pid : Nat} {process : Process} {fd : Int} {use : Use} {key : Ptr} {reply : Reply}
      {talk : Talk} (alive : processes pid = some process)
      (denoted : fdtFile process.fdt fd = some key) (asks : Asks key use reply talk) :
      Asked processes (use.action pid fd) reply talk
        (Function.update processes pid
          (some { process with fdt := tableAfter process.fdt fd use }))
  | noFile {pid : Nat} {process : Process} {fd : Int} {use : Use}
      (alive : processes pid = some process) (missing : fdtFile process.fdt fd = none) :
      Asked processes (use.action pid fd) (replyWithout fd use) [] processes
  | exec {pid : Nat} {process : Process} {cmdLine : List Byte} {name : Name} {found : Option Ptr}
      (alive : processes pid = some process) (word : strtok [0x20] cmdLine = some name) :
      Asked processes (.exec pid cmdLine) (truth found.isSome)
        ((.open_ name, .opened found) :: closes found.toList) processes
  | exit {pid : Nat} {process : Process} (alive : processes pid = some process) :
      Asked processes (.exit pid) (number 0) (closes (keysOf process))
        (Function.update processes pid none)
  | killed {pid : Nat} {process : Process} (alive : processes pid = some process) :
      Asked processes (.killed pid) (number 0) [] (Function.update processes pid none)
  | start {pid : Nat} {command : List Byte} {room : Room} {name : Name} {loaded : Loaded}
      {talk : Talk} (absent : processes pid = none)
      (word : strtok [0x20, 0x09, 0x0a] command = some name) (loads : Loads name talk loaded) :
      Asked processes (.start pid command room) (number 0) talk (afterLoad processes pid loaded)
  -- no page directory
  | notStarted {pid : Nat} {command : List Byte} {room : Room} (absent : processes pid = none) :
      Asked processes (.start pid command room) (number 0) [] processes
  | extract {fileName : Name} {content : List Byte} {key : Ptr} :
      Asked processes (.extract fileName content) (number 0)
        ((.create fileName (List.replicate content.length 0), .success true) ::
          (.open_ fileName, .opened (some key)) ::
          (copies key (bytesToSectors content.length) content ++ [(.close key, .done)])) processes

/-- Strings have no null bytes, and `filesys_create` gets no negative length. -/
def Proper : Action → Prop
  | .create _ file initialSize => 0 ≤ initialSize.toInt ∧ (0 : Byte) ∉ file
  | .extract fileName content => content.length < 2 ^ 31 ∧ (0 : Byte) ∉ fileName
  | _ => True

/-- What the steps of a run ask, one after the other. -/
inductive AskedAll : Processes → List (Action × Reply) → Talk → Processes → Prop where
  | nil {processes : Processes} : AskedAll processes [] [] processes
  | cons {processes after last : Processes} {action : Action} {reply : Reply} {talk later : Talk}
      {rest : List (Action × Reply)} (first : Asked processes action reply talk after)
      (then_ : AskedAll after rest later last) :
      AskedAll processes ((action, reply) :: rest) (talk ++ later) last

section Talking

variable {fs : FileSys} {store : Files} {key : Ptr}

/-- The program does what a talk with the store says. -/
def Talks {Value : Type} (store : Files) (program : FsM Value) (fs : FileSys)
    (post : Value → Talk → Files → Prop) : Prop :=
  Ensures program fs fun value next =>
    ∃ talk after, Runs store talk after ∧ Shows next after ∧ post value talk after

theorem talks_pure {Value : Type} {value : Value} {post : Value → Talk → Files → Prop}
    (shows_ : Shows fs store) (holds : post value [] store) :
    Talks store (pure value : FsM Value) fs post :=
  ensures_pure ⟨[], store, .nil, shows_, holds⟩

theorem talks_mono {Value : Type} {program : FsM Value} {strong weak : Value → Talk → Files → Prop}
    (talks : Talks store program fs strong)
    (weaker : ∀ value talk after, strong value talk after → weak value talk after) :
    Talks store program fs weak := by
  intro value next ran
  obtain ⟨talk, after, runs, showing, holds⟩ := talks value next ran
  exact ⟨talk, after, runs, showing, weaker value talk after holds⟩

theorem talks_bind {Value Result : Type} {program : FsM Value} {rest : Value → FsM Result}
    {middle : Value → Talk → Files → Prop} {post : Result → Talk → Files → Prop}
    (first : Talks store program fs middle)
    (then_ : ∀ value talk after next, Shows next after → middle value talk after →
      Talks after (rest value) next fun result later last => post result (talk ++ later) last) :
    Talks store (program >>= rest) fs post := by
  unfold Talks
  refine ensures_bind first ?_
  intro value next talked result last ran
  obtain ⟨talk, after, runs, showing, holds⟩ := talked
  obtain ⟨later, final, more, ends, done⟩ := then_ value talk after next showing holds result last ran
  exact ⟨talk ++ later, final, runs_append runs more, ends, done⟩

/-- A function that answers one call. -/
theorem talks_call {Value : Type} {program : FsM Value} {call : Call Name Ptr Byte}
    {answer : Value → Answer Ptr Byte} {extra : Value → Prop}
    (follows : Returns program fs fun value next => Follows store call (answer value) next ∧
      extra value) :
    Talks store program fs fun value talk after =>
      talk = [(call, answer value)] ∧ Step store call (answer value) after := by
  intro value next ran
  obtain ⟨⟨after, step, showing⟩, _⟩ := returns_ok follows ran
  exact ⟨[(call, answer value)], after, .cons step .nil, showing, rfl, step⟩

theorem talks_one {Value : Type} {program : FsM Value} {call : Call Name Ptr Byte}
    {answer : Value → Answer Ptr Byte}
    (follows : Returns program fs fun value next => Follows store call (answer value) next) :
    Talks store program fs fun value talk after =>
      talk = [(call, answer value)] ∧ Step store call (answer value) after :=
  @talks_call _ _ _ program call answer (fun _ => True)
    (returns_mono follows fun _ _ follow => ⟨follow, trivial⟩)

theorem is_open (shows_ : Shows fs store) (open_ : store.opened key ≠ none) : IsOpen fs key := by
  rw [shows_.opened] at open_
  obtain ⟨found, there⟩ := Option.ne_none_iff_exists'.mp open_
  obtain ⟨handle, _, notMap, here, _⟩ := opened_at_some there
  exact ⟨⟨handle, here⟩, notMap⟩

theorem open_shown (shows_ : Shows fs store) (open_ : IsOpen fs key) : store.opened key ≠ none := by
  obtain ⟨_, ready⟩ := shows_.ready
  obtain ⟨_, _, _, _, opened, _⟩ := shows_open shows_ ready open_
  rw [opened]
  simp

/-- The program does no more than read a file and move about in it. -/
def Watches {Value : Type} (store : Files) (key : Ptr) (program : FsM Value) (fs : FileSys) : Prop :=
  Talks store program fs fun _ talk after =>
    (∀ entry ∈ talk, Looks key entry.1) ∧ after.opened key ≠ none

theorem watches_pure {Value : Type} {value : Value} (shows_ : Shows fs store)
    (open_ : store.opened key ≠ none) : Watches store key (pure value : FsM Value) fs :=
  talks_pure shows_ ⟨fun _ none_ => absurd none_ List.not_mem_nil, open_⟩

theorem watches_bind {Value Result : Type} {program : FsM Value} {rest : Value → FsM Result}
    (first : Watches store key program fs)
    (then_ : ∀ value after next, Shows next after → after.opened key ≠ none →
      Watches after key (rest value) next) : Watches store key (program >>= rest) fs := by
  apply talks_bind first
  intro value talk after next showing looked
  apply talks_mono (then_ value after next showing looked.2)
  intro _ later last more
  refine ⟨?_, more.2⟩
  intro entry inside
  cases List.mem_append.mp inside with
  | inl early => exact looked.1 entry early
  | inr late => exact more.1 entry late

theorem watches_call {Value : Type} {program : FsM Value} {call : Call Name Ptr Byte}
    {answer : Value → Answer Ptr Byte} (open_ : store.opened key ≠ none)
    (follows : Returns program fs fun value next => Follows store call (answer value) next)
    (looks : Looks key call) : Watches store key program fs := by
  apply talks_mono (talks_one follows)
  intro value talk after both
  obtain ⟨isTalk, step⟩ := both
  refine ⟨?_, step_opened step ?_ open_⟩
  · intro entry inside
    rw [isTalk, List.mem_singleton] at inside
    rw [inside]
    exact looks
  · intro same
    rw [same] at looks
    exact looks

theorem watches_read (shows_ : Shows fs store) (open_ : store.opened key ≠ none) (size : Int) :
    Watches store key (fileRead key size) fs :=
  watches_call open_ (read_follows shows_ (is_open shows_ open_) size) rfl

theorem watches_length (shows_ : Shows fs store) (open_ : store.opened key ≠ none) :
    Watches store key (fileLength key) fs :=
  watches_call open_
    (returns_mono (length_follows shows_ (is_open shows_ open_)) fun _ _ both => both.1) rfl

theorem watches_seek (shows_ : Shows fs store) (open_ : store.opened key ≠ none) (newPos : Int) :
    Watches store key (fileSeek key newPos) fs := by
  by_cases negative : newPos < 0
  · unfold fileSeek
    rw [if_pos negative]
    exact ensures_throw
  · exact watches_call open_
      (seek_follows shows_ (is_open shows_ open_) (Int.not_lt.mp negative)) rfl

variable {room : Room}

theorem load_pages_watches (pages readBytes frame : Nat) (shows_ : Shows fs store)
    (open_ : store.opened key ≠ none) :
    Watches store key (loadPages room key pages readBytes frame) fs := by
  induction pages generalizing fs store readBytes frame with
  | zero => exact watches_pure shows_ open_
  | succ pages ih =>
      unfold loadPages
      split
      · exact watches_pure shows_ open_
      · apply watches_bind (watches_read shows_ open_ _)
        intro bytes after next showing still
        split
        · exact watches_pure showing still
        · exact ih _ _ showing still

theorem load_segment_watches (segment : Segment) (frame : Nat) (shows_ : Shows fs store)
    (open_ : store.opened key ≠ none) :
    Watches store key (loadSegment room key segment frame) fs := by
  apply watches_bind (watches_seek shows_ open_ _)
  intro _ after next showing still
  exact load_pages_watches _ _ _ showing still

theorem load_phdrs_watches (headers fileOfs frame : Nat) (shows_ : Shows fs store)
    (open_ : store.opened key ≠ none) :
    Watches store key (loadPhdrs room key headers fileOfs frame) fs := by
  induction headers generalizing fs store fileOfs frame with
  | zero => exact watches_pure shows_ open_
  | succ headers ih =>
      unfold loadPhdrs
      apply watches_bind (watches_length shows_ open_)
      intro length first next shown still
      split
      · exact watches_pure shown still
      · apply watches_bind (watches_seek shown still _)
        intro _ second next shown still
        apply watches_bind (watches_read shown still _)
        intro phdr third next shown still
        split
        · exact watches_pure shown still
        · split
          · exact ih _ _ shown still
          · exact watches_pure shown still
          · next segment _ =>
              apply watches_bind (load_segment_watches segment frame shown still)
              intro result fourth next shown still
              obtain ⟨loaded, later⟩ := result
              dsimp only
              split
              · exact ih _ _ shown still
              · exact watches_pure shown still

/-- A null pointer for a name is caught by an assertion. -/
theorem open_null_never (shows_ : Shows fs store) : Ensures (filesysOpen none) fs fun _ _ => False := by
  obtain ⟨inodes, ready⟩ := shows_.ready
  unfold filesysOpen
  refine ensures_bind (ensures_returns (dir_open_root_returns ready.sound ready.catalog)) ?_
  intro result first after
  cases result with
  | none => exact absurd ready.plenty after.2
  | some dir =>
      apply ensures_never
      unfold dirLookup
      apply ensures_never
      exact ensures_throw

theorem talks_never {Value Result : Type} {program : FsM Value} {rest : Value → FsM Result}
    {post : Result → Talk → Files → Prop} (never : Ensures program fs fun _ _ => False) :
    Talks store (program >>= rest) fs post := by
  unfold Talks
  exact ensures_never never

theorem talks_open (shows_ : Shows fs store) (name : Name) :
    Talks store (filesysOpen (some name)) fs fun found talk after =>
      talk = [(.open_ name, .opened found)] ∧ ∀ key, found = some key → after.opened key ≠ none := by
  apply talks_mono (talks_one (open_follows shows_))
  intro found talk after both
  obtain ⟨isTalk, step⟩ := both
  refine ⟨isTalk, ?_⟩
  intro key isKey
  rw [isKey] at step
  cases step with
  | opened named free =>
      unfold Store.setHandle
      dsimp only
      rw [Function.update_self]
      simp

theorem talks_close (shows_ : Shows fs store) (open_ : store.opened key ≠ none) :
    Talks store (fileClose (some key)) fs fun _ talk after =>
      talk = [(.close key, .done)] ∧
        ∀ other ≠ key, store.opened other ≠ none → after.opened other ≠ none := by
  apply talks_mono (talks_one (close_follows shows_ (is_open shows_ open_)))
  intro _ talk after both
  obtain ⟨isTalk, step⟩ := both
  refine ⟨isTalk, ?_⟩
  intro other apart still
  refine step_opened step ?_ still
  intro same
  cases same
  exact apart rfl

theorem talks_deny (shows_ : Shows fs store) (open_ : store.opened key ≠ none) :
    Talks store (fileDenyWrite (some key)) fs fun _ talk _ => talk = [(.denyWrite key, .done)] := by
  apply talks_mono (talks_one (flag_follows shows_ (is_open shows_ open_) true))
  intro _ talk after both
  exact both.1

/-- The end of `load`: the executable is opened for the process. -/
theorem load_reopens_talks (shows_ : Shows fs store) (name : Name) :
    Talks store (do
        match ← filesysOpen (some name) with
        | none => throw .nullFile
        | some fileToExe =>
            fileDenyWrite (some fileToExe)
            return .success fileToExe : FsM Loaded) fs fun loaded talk _ =>
      ∃ fileToExe, loaded = .success fileToExe ∧
        talk = [(.open_ name, .opened (some fileToExe)), (.denyWrite fileToExe, .done)] := by
  apply talks_bind (talks_open shows_ name)
  intro found talk after next showing opened
  cases found with
  | none => exact ensures_throw
  | some fileToExe =>
      apply talks_bind (talks_deny showing (opened.2 fileToExe rfl))
      intro _ denied final last ends isDenied
      apply talks_pure ends
      refine ⟨fileToExe, rfl, ?_⟩
      rw [opened.1, isDenied]
      rfl

theorem load_talks (command : List Byte) (shows_ : Shows fs store) :
    Talks store (load room command) fs fun loaded talk _ =>
      (loaded = .failed ∧ talk = []) ∨
        ∃ name, strtok [0x20, 0x09, 0x0a] command = some name ∧ Loads name talk loaded := by
  unfold load
  split
  · exact talks_pure shows_ (.inl ⟨rfl, rfl⟩)
  split
  · exact ensures_throw
  cases word : strtok [0x20, 0x09, 0x0a] command with
  | none => exact talks_never (open_null_never shows_)
  | some name =>
      apply talks_bind (talks_open shows_ name)
      intro found talk after next showing opened
      obtain ⟨isTalk, still⟩ := opened
      cases found with
      | none =>
          apply talks_pure showing
          rw [isTalk]
          exact .inr ⟨name, rfl, .missing⟩
      | some key =>
          apply talks_bind (watches_read showing (still key rfl) 52)
          intro ehdr read second next shown watched
          obtain ⟨looked, still⟩ := watched
          split
          · apply talks_pure shown
            rw [isTalk, List.append_nil]
            exact .inr ⟨name, rfl, .exited looked⟩
          · apply talks_bind (load_phdrs_watches (ePhnum ehdr) (ePhoff ehdr) 0 shown still)
            intro loaded phdrs third next shown watched
            obtain ⟨also, still⟩ := watched
            have all : ∀ entry ∈ read ++ phdrs, Looks key entry.1 := by
              intro entry inside
              cases List.mem_append.mp inside with
              | inl early => exact looked entry early
              | inr late => exact also entry late
            apply talks_bind (talks_close shown still)
            intro _ closed fourth next shown isClosed
            split
            · apply talks_mono (load_reopens_talks shown name)
              intro result later final reopened
              obtain ⟨fileToExe, isLoaded, isLater⟩ := reopened
              rw [isTalk, isClosed.1, isLater, isLoaded]
              have success := @Loads.success name key fileToExe _ all
              rw [List.append_assoc] at success
              exact .inr ⟨name, rfl, success⟩
            · apply talks_pure shown
              rw [isTalk, isClosed.1]
              have failed := @Loads.failed name key _ all
              rw [List.append_assoc] at failed
              exact .inr ⟨name, rfl, failed⟩

theorem talks_write (shows_ : Shows fs store) (open_ : store.opened key ≠ none)
    (buffer : Nat → Byte) (size : Int) :
    Talks store (fileWrite key buffer size) fs fun written talk after =>
      talk = [(.write key (slice buffer 0 size.toNat), .count written)] ∧
        after.opened key ≠ none := by
  apply talks_mono (talks_one (write_follows shows_ (is_open shows_ open_) buffer size))
  intro written talk after both
  exact ⟨both.1, step_opened both.2 (fun same => by cases same) open_⟩

/-- A buffer filled from a list of bytes. -/
theorem slice_chunk (chunk : List Byte) :
    slice (fun index => chunk.getD index 0) 0 ((chunk.length : Nat) : Int).toNat = chunk := by
  rw [Int.toNat_natCast]
  apply List.ext_getElem?
  intro index
  by_cases inside : index < chunk.length
  · rw [slice_get inside, Nat.zero_add, List.getD_eq_getElem?_getD, List.getElem?_eq_getElem inside]
    rfl
  · rw [slice_get_of_ge (Nat.not_lt.mp inside), List.getElem?_eq_none (Nat.not_lt.mp inside)]

theorem copy_loop_talks (sectors : Nat) (content : List Byte) (shows_ : Shows fs store)
    (open_ : store.opened key ≠ none) :
    Talks store (copyLoop key sectors content) fs fun _ talk after =>
      talk = copies key sectors content ∧ after.opened key ≠ none := by
  induction sectors generalizing fs store content with
  | zero => exact talks_pure shows_ ⟨rfl, open_⟩
  | succ sectors ih =>
      unfold copyLoop
      apply talks_bind (talks_write shows_ open_ _ _)
      intro written talk after next showing wrote
      obtain ⟨isTalk, still⟩ := wrote
      split
      · next whole =>
          apply talks_mono (ih _ showing still)
          intro _ later last rest
          rw [isTalk, rest.1, slice_chunk, whole]
          exact ⟨rfl, rest.2⟩
      · exact ensures_throw

theorem create_talks {initialSize : Word} {name : Name} (shows_ : Shows fs store)
    (nonneg : 0 ≤ initialSize.toInt) (noNul : (0 : Byte) ∉ name) :
    Talks store (filesysCreate name initialSize) fs fun made talk _ =>
      talk = [(.create name (List.replicate initialSize.toInt.toNat 0), .success made)] := by
  apply talks_mono (talks_call (create_follows shows_ nonneg noNul))
  intro made talk after both
  exact both.1

theorem extract_talks {fileName : Name} {content : List Byte} (shows_ : Shows fs store)
    (small : content.length < 2 ^ 31) (noNul : (0 : Byte) ∉ fileName) :
    Talks store (fsutilExtract fileName content) fs fun _ talk _ => ∃ key,
      talk = (.create fileName (List.replicate content.length 0), .success true) ::
        (.open_ fileName, .opened (some key)) ::
        (copies key (bytesToSectors content.length) content ++ [(.close key, .done)]) := by
  have length : (BitVec.ofNat 32 content.length).toInt = content.length := by
    rw [BitVec.toInt_ofNat', Int.bmod_def]
    omega
  unfold fsutilExtract
  apply talks_bind (create_talks shows_ (by rw [length]; omega) noNul)
  intro created talk after next showing isCreated
  cases created with
  | false => exact ensures_throw
  | true =>
      rw [if_pos rfl]
      apply talks_bind (talks_open showing fileName)
      intro found opens second next shown opened
      cases found with
      | none => exact ensures_throw
      | some key =>
          apply talks_bind (copy_loop_talks _ content shown (opened.2 key rfl))
          intro _ copied third next shown isCopied
          apply talks_mono (talks_close shown isCopied.2)
          intro _ closed last isClosed
          refine ⟨key, ?_⟩
          rw [isCreated, opened.1, isCopied.1, isClosed.1, length, Int.toNat_natCast]
          simp only [List.cons_append, List.nil_append]

theorem exec_talks {cmdLine : List Byte} (shows_ : Shows fs store) :
    Talks store (sysExec cmdLine) fs fun found talk _ => ∃ name opened,
      strtok [0x20] cmdLine = some name ∧ found = Option.isSome opened ∧
        talk = (.open_ name, .opened opened) :: closes opened.toList := by
  unfold sysExec
  cases word : strtok [0x20] cmdLine with
  | none => exact talks_never (open_null_never shows_)
  | some name =>
      apply talks_bind (talks_open shows_ name)
      intro found talk after next showing opened
      cases found with
      | none =>
          apply talks_pure showing
          rw [opened.1]
          exact ⟨name, none, rfl, rfl, rfl⟩
      | some key =>
          apply talks_bind (talks_close showing (opened.2 key rfl))
          intro _ closed last final ends isClosed
          apply talks_pure ends
          rw [opened.1, isClosed.1]
          exact ⟨name, some key, rfl, rfl, rfl⟩

/-- The files of the slots are open, and none is in two of them. -/
structure Slots (store : Files) (fdt : Fdt) (indices : List Nat) : Prop where
  nodup : indices.Nodup
  open_ : ∀ index ∈ indices, ∀ key, fdtFile fdt index = some key → store.opened key ≠ none
  apart : ∀ first ∈ indices, ∀ second ∈ indices, ∀ key, fdtFile fdt first = some key →
    fdtFile fdt second = some key → first = second

/-- The files that the slots have open. -/
def slotKeys (fdt : Fdt) (indices : List Nat) : List Ptr :=
  indices.filterMap fun index : Nat => fdtFile fdt index

theorem fdt_file_elsewhere {fdt : Fdt} {index other : Nat} (apart : other ≠ index) :
    fdtFile (Function.update fdt (index : Int).toNat none) other = fdtFile fdt other := by
  unfold fdtFile
  split
  · rw [Int.toNat_natCast, Int.toNat_natCast, Function.update_of_ne apart]
  · rfl

/-- A slot that has been cleared does not matter for the others. -/
theorem slots_cleared {fdt : Fdt} {index : Nat} {rest : List Nat} {key : Ptr} {after : Files}
    (slots : Slots store fdt (index :: rest)) (here : fdtFile fdt index = some key)
    (still : ∀ other ≠ key, store.opened other ≠ none → after.opened other ≠ none) :
    Slots after (Function.update fdt (index : Int).toNat none) rest ∧
      slotKeys (Function.update fdt (index : Int).toNat none) rest = slotKeys fdt rest := by
  have fresh : ∀ other ∈ rest, other ≠ index := by
    intro other inside same
    rw [same] at inside
    exact (List.nodup_cons.mp slots.nodup).1 inside
  have same : ∀ other ∈ rest, fdtFile (Function.update fdt (index : Int).toNat none) other =
      fdtFile fdt other := fun other inside => fdt_file_elsewhere (fresh other inside)
  refine ⟨⟨(List.nodup_cons.mp slots.nodup).2, ?_, ?_⟩, List.filterMap_congr same⟩
  · intro other inside found there
    rw [same other inside] at there
    refine still found ?_ (slots.open_ other (List.mem_cons_of_mem _ inside) found there)
    intro isKey
    rw [isKey] at there
    exact fresh other inside (slots.apart other (List.mem_cons_of_mem _ inside) index
      List.mem_cons_self key there here)
  · intro first firstIn second secondIn found one two
    rw [same first firstIn] at one
    rw [same second secondIn] at two
    exact slots.apart first (List.mem_cons_of_mem _ firstIn) second
      (List.mem_cons_of_mem _ secondIn) found one two

theorem close_loop_talks (indices : List Nat) {fdt : Fdt} (shows_ : Shows fs store)
    (slots : Slots store fdt indices) :
    Talks store (closeLoop indices fdt) fs fun _ talk after =>
      talk = closes (slotKeys fdt indices) ∧
        ∀ other, other ∉ slotKeys fdt indices → store.opened other ≠ none →
          after.opened other ≠ none := by
  induction indices generalizing fs store fdt with
  | nil => exact talks_pure shows_ ⟨rfl, fun _ _ still => still⟩
  | cons index rest ih =>
      unfold closeLoop sysClose
      cases here : fdtFile fdt index with
      | none =>
          have keys : slotKeys fdt (index :: rest) = slotKeys fdt rest :=
            List.filterMap_cons_none here
          rw [keys]
          refine ih shows_ ⟨(List.nodup_cons.mp slots.nodup).2, ?_, ?_⟩
          · exact fun other inside => slots.open_ other (List.mem_cons_of_mem _ inside)
          · exact fun first one second two => slots.apart first (List.mem_cons_of_mem _ one) second
              (List.mem_cons_of_mem _ two)
      | some key =>
          have keys : slotKeys fdt (index :: rest) = key :: slotKeys fdt rest :=
            List.filterMap_cons_some here
          rw [bind_assoc]
          apply talks_bind (talks_close shows_ (slots.open_ index List.mem_cons_self key here))
          intro _ talk after next showing closed
          obtain ⟨isTalk, still⟩ := closed
          obtain ⟨cleared, same⟩ := slots_cleared slots here still
          rw [pure_bind]
          apply talks_mono (ih showing cleared)
          intro last later final rest_
          obtain ⟨isLater, stillLater⟩ := rest_
          rw [isTalk, isLater, same, keys]
          refine ⟨rfl, ?_⟩
          intro other outside open_
          rw [List.mem_cons, not_or] at outside
          refine stillLater other ?_ (still other outside.1 open_)
          rw [same]
          exact outside.2

theorem exit_talks {process : Process} (shows_ : Shows fs store)
    (slots : Slots store process.fdt (List.range 128))
    (executable : ∀ fileToExe, process.fileToExe = some fileToExe →
      store.opened fileToExe ≠ none ∧ fileToExe ∉ slotKeys process.fdt (List.range 128)) :
    Talks store (sysExit process) fs fun _ talk _ => talk = closes (keysOf process) := by
  unfold sysExit
  apply talks_bind (close_loop_talks _ shows_ slots)
  intro _ talk after next showing closed
  obtain ⟨isTalk, still⟩ := closed
  have keys : keysOf process = slotKeys process.fdt (List.range 128) ++ process.fileToExe.toList := rfl
  rw [keys]
  cases isExe : process.fileToExe with
  | none =>
      apply talks_pure showing
      rw [isTalk, Option.toList_none, List.append_nil, List.append_nil]
  | some fileToExe =>
      obtain ⟨open_, apart⟩ := executable fileToExe isExe
      apply talks_mono (talks_close showing (still fileToExe apart open_))
      intro _ later last isClosed
      rw [isTalk, isClosed.1]
      unfold closes
      rw [List.map_append]
      rfl

/-- A call on a descriptor of a file. -/
theorem use_talks {fdt : Fdt} {fd : Int} (shows_ : Shows fs store) (open_ : store.opened key ≠ none)
    (denoted : fdtFile fdt fd = some key) (use : Use) :
    Talks store (use.perform fdt fd) fs fun result talk _ =>
      Asks key use result.1 talk ∧ result.2 = tableAfter fdt fd use := by
  have isOpen := is_open shows_ open_
  obtain ⟨large, _, _⟩ := fdt_file_some denoted
  have notIn : fd ≠ 0 := by omega
  have notOut : fd ≠ 1 := by omega
  cases use with
  | close =>
      unfold Use.perform sysClose
      simp only [denoted, bind_assoc, pure_bind]
      apply talks_bind (talks_close shows_ open_)
      intro _ talk after next showing closed
      apply talks_pure showing
      rw [closed.1]
      exact ⟨.close, rfl⟩
  | read size input =>
      unfold Use.perform sysRead
      simp only [denoted, if_neg notIn, if_neg notOut, bind_assoc, pure_bind]
      apply talks_bind (talks_one (read_follows shows_ isOpen size.toInt))
      intro bytes talk after next showing both
      apply talks_pure showing
      rw [both.1]
      exact ⟨.read, rfl⟩
  | write buffer size =>
      unfold Use.perform sysWrite
      simp only [denoted, if_neg notIn, if_neg notOut, bind_assoc, pure_bind]
      apply talks_bind (talks_one (write_follows shows_ isOpen buffer size.toInt))
      intro written talk after next showing both
      apply talks_pure showing
      rw [both.1]
      exact ⟨.write, rfl⟩
  | seek position =>
      unfold Use.perform sysSeek
      simp only [denoted]
      by_cases negative : position.toInt < 0
      · apply talks_never
        unfold fileSeek
        rw [if_pos negative]
        exact ensures_throw
      · apply talks_bind (talks_one (seek_follows shows_ isOpen (Int.not_lt.mp negative)))
        intro _ talk after next showing both
        apply talks_pure showing
        rw [both.1]
        exact ⟨.seek, rfl⟩
  | tell =>
      unfold Use.perform sysTell
      simp only [denoted]
      apply talks_bind (talks_one (tell_follows shows_ isOpen))
      intro pos talk after next showing both
      apply talks_pure showing
      rw [both.1]
      exact ⟨.tell, rfl⟩
  | filesize =>
      unfold Use.perform sysFilesize
      simp only [denoted]
      have follows := length_follows shows_ isOpen
      have talks : Talks store (fileLength key) fs fun length talk _ =>
          talk = [(.length key, .count length.toNat)] ∧ 0 ≤ length := by
        intro length next ran
        obtain ⟨⟨after, step, showing⟩, nonneg⟩ := returns_ok follows ran
        exact ⟨_, after, .cons step .nil, showing, rfl, nonneg⟩
      apply talks_bind talks
      intro length talk after next showing both
      obtain ⟨isTalk, nonneg⟩ := both
      apply talks_pure showing
      rw [isTalk, List.append_nil]
      have asks := @Asks.filesize key length.toNat
      rw [Int.toNat_of_nonneg nonneg] at asks
      exact ⟨asks, rfl⟩

/-- A call on a descriptor without a file. -/
theorem use_without {fdt : Fdt} {fd : Int} (missing : fdtFile fdt fd = none) (use : Use) :
    use.perform fdt fd = pure (replyWithout fd use, fdt) := by
  cases use with
  | close => simp only [Use.perform, sysClose, missing, pure_bind, replyWithout, number]
  | seek position => simp only [Use.perform, sysSeek, missing, pure_bind, replyWithout, number]
  | tell =>
      simp only [Use.perform, sysTell, missing, pure_bind, replyWithout, number]
      rfl
  | filesize => simp only [Use.perform, sysFilesize, missing, pure_bind, replyWithout, number]
  | read size input =>
      simp only [Use.perform, sysRead, missing, replyWithout, number]
      split
      · rw [pure_bind]
      · split
        · rw [pure_bind]
        · rw [pure_bind]
  | write buffer size =>
      simp only [Use.perform, sysWrite, missing, replyWithout, number]
      split
      · rw [pure_bind]
      · split
        · rw [pure_bind]
        · rw [pure_bind]

end Talking

section Replies

variable {processes : Processes} {pid : Nat}

theorem answering_forgets {Value : Type} (call : FsM Value) (reply : Value → Reply) :
    (answering processes pid do return reply (← call)).map (fun program => do
      let result ← program
      return result.2) = unchanged processes pid fun _ => call := by
  unfold answering unchanged
  rw [Option.map_map]
  congr 1
  funext process
  simp only [Function.comp_apply, bind_assoc, pure_bind]

/-- Calls that leave the table of their process as it is. -/
theorem on_table_forgets {Value : Type} (call : Process → FsM Value) (reply : Value → Reply) :
    (onTable processes pid fun process => do
        let value ← call process
        return (reply value, process.fdt)).map (fun program => do
      let result ← program
      return result.2) = unchanged processes pid call := by
  unfold onTable unchanged
  rw [Option.map_map]
  apply Option.map_congr
  intro process alive
  simp only [Function.comp_apply, bind_assoc, pure_bind, held_same alive]

/-- Replies aside, this is what the step does. -/
theorem serve_perform (action : Action) :
    (serve processes action).map (fun program => do
      let result ← program
      return result.2) = action.perform processes := by
  have plain : ∀ possible : Option (FsM Processes),
      (possible.map fun program => do
        let after ← program
        return (number 0, after)).map (fun program => do
          let result ← program
          return result.2) = possible := by
    intro possible
    rw [Option.map_map]
    cases possible with
    | none => rfl
    | some program =>
        simp only [Option.map_some, Function.comp_apply, bind_assoc, pure_bind, bind_pure]
  cases action with
  | create pid file initialSize => exact answering_forgets _ truth
  | remove pid file => exact answering_forgets _ truth
  | exec pid cmdLine => exact answering_forgets _ truth
  | openFile pid file =>
      simp only [serve, onTable, Action.perform, Option.map_map]
      congr 1
      funext process
      simp only [Function.comp_apply, bind_assoc, pure_bind]
  | close pid fd =>
      simp only [serve, onTable, Action.perform, Option.map_map]
      congr 1
      funext process
      simp only [Function.comp_apply, Use.perform, bind_assoc, pure_bind]
  | filesize pid fd => exact on_table_forgets _ number
  | read pid fd size input =>
      exact on_table_forgets _ fun result : Int × List Byte => { value := result.1, bytes := result.2 }
  | write pid fd buffer size => exact on_table_forgets _ number
  | seek pid fd position => exact on_table_forgets _ fun _ => number 0
  | tell pid fd => exact on_table_forgets _ fun position : Nat => number position
  | exit pid => exact plain _
  | killed pid => exact plain _
  | start pid command room => exact plain _
  | extract fileName content => exact plain (Action.perform processes (.extract fileName content))

theorem serve_step {system next : System} {action : Action} {reply : Reply}
    (taken : serveStep system action = some (reply, next)) : step system action = some next := by
  unfold serveStep at taken
  unfold step
  rw [← serve_perform]
  cases possible : serve system.processes action with
  | none =>
      rw [possible] at taken
      cases taken
  | some program =>
      rw [possible] at taken
      dsimp only at taken
      cases ran : program system.fs with
      | error error last =>
          rw [ran] at taken
          cases taken
      | ok result last =>
          rw [ran] at taken
          cases taken
          rw [Option.map_some]
          dsimp only
          rw [bind_run ran]
          rfl

theorem serve_ok {system next : System} {action : Action} {reply : Reply}
    (taken : serveStep system action = some (reply, next)) :
    ∃ program, serve system.processes action = some program ∧
      program system.fs = .ok (reply, next.processes) next.fs := by
  unfold serveStep at taken
  cases possible : serve system.processes action with
  | none =>
      rw [possible] at taken
      cases taken
  | some program =>
      rw [possible] at taken
      dsimp only at taken
      cases ran : program system.fs with
      | error error last =>
          rw [ran] at taken
          cases taken
      | ok result last =>
          rw [ran] at taken
          cases taken
          exact ⟨program, rfl, ran⟩

theorem step_served {system next : System} {action : Action}
    (taken : step system action = some next) : ∃ reply, serveStep system action = some (reply, next) := by
  obtain ⟨program, possible, ran⟩ := step_ok taken
  rw [← serve_perform] at possible
  obtain ⟨served, serves, isProgram⟩ := Option.map_eq_some_iff.mp possible
  rw [← isProgram] at ran
  obtain ⟨result, last, before, ends⟩ := bind_ok ran
  obtain ⟨reply, processes⟩ := result
  cases ends
  refine ⟨reply, ?_⟩
  unfold serveStep
  rw [serves]
  dsimp only
  rw [before]

/-- A run of the system is a run with replies. -/
theorem served_of_run {system last : System} (actions : List Action)
    (ran : runWithin step (fun _ _ => True) system actions = some last) :
    ∃ run, run.map Prod.fst = actions ∧ Served system run last := by
  induction actions generalizing system with
  | nil =>
      cases ran
      exact ⟨[], rfl, .nil⟩
  | cons action rest ih =>
      simp only [runWithin, if_true] at ran
      cases taken : step system action with
      | none =>
          rw [taken] at ran
          cases ran
      | some next =>
          rw [taken] at ran
          obtain ⟨run, isRest, served⟩ := ih ran
          obtain ⟨reply, serves⟩ := step_served taken
          exact ⟨(action, reply) :: run, by rw [List.map_cons, isRest], .cons serves served⟩

end Replies

section Steps

variable {tidy exclusive : Prop} {fs : FileSys} {store : Files} {processes : Processes}
  {process : Process} {pid : Nat}

/-- What a process holds is open. -/
theorem held_open (inv : Inv tidy exclusive fs processes.held) (shows_ : Shows fs store)
    {holder : Holder} {key : Ptr} (holds : processes.held holder = some key) :
    store.opened key ≠ none :=
  open_shown shows_ (inv.present holder key holds)

theorem fdt_held (alive : processes pid = some process) {fd : Int} {key : Ptr}
    (denoted : fdtFile process.fdt fd = some key) :
    processes.held (.descriptor pid fd.toNat) = some key := by
  obtain ⟨_, _, here⟩ := fdt_file_some denoted
  simp only [Processes.held, alive, Option.bind_some, here]

theorem slots_held (inv : Inv tidy exclusive fs processes.held) (shows_ : Shows fs store)
    (alive : processes pid = some process) : Slots store process.fdt (List.range 128) := by
  refine ⟨List.nodup_range, ?_, ?_⟩
  · intro index _ key denoted
    exact held_open inv shows_ (fdt_held alive denoted)
  · intro first _ second _ key one two
    have same := inv.once _ _ key (fdt_held alive one) (fdt_held alive two)
    rw [Int.toNat_natCast, Int.toNat_natCast] at same
    cases same
    rfl

theorem executable_held (inv : Inv tidy exclusive fs processes.held) (shows_ : Shows fs store)
    (alive : processes pid = some process) {fileToExe : Ptr}
    (isExe : process.fileToExe = some fileToExe) :
    store.opened fileToExe ≠ none ∧ fileToExe ∉ slotKeys process.fdt (List.range 128) := by
  have holds : processes.held (.executable pid) = some fileToExe := by
    simp only [Processes.held, alive, Option.bind_some, isExe]
  refine ⟨held_open inv shows_ holds, ?_⟩
  intro inside
  obtain ⟨index, _, denoted⟩ := List.mem_filterMap.mp inside
  have same := inv.once _ _ fileToExe holds (fdt_held alive denoted)
  cases same

/-- A call on a descriptor is a step of its process. -/
theorem on_table_talks {fd : Int} (use : Use) (inv : Inv tidy exclusive fs processes.held)
    (shows_ : Shows fs store) (alive : processes pid = some process) :
    Talks store (do
        let (reply, fdt) ← use.perform process.fdt fd
        return (reply, Function.update processes pid (some { process with fdt := fdt }))) fs
      fun result talk _ => Asked processes (use.action pid fd) result.1 talk result.2 := by
  cases denoted : fdtFile process.fdt fd with
  | none =>
      rw [use_without denoted, pure_bind]
      apply talks_pure shows_
      dsimp only
      rw [held_same alive]
      exact .noFile alive denoted
  | some key =>
      apply talks_bind
        (use_talks shows_ (held_open inv shows_ (fdt_held alive denoted)) denoted use)
      intro result talk after next showing asked
      obtain ⟨asks, isTable⟩ := asked
      obtain ⟨reply, fdt⟩ := result
      dsimp only at asks isTable ⊢
      apply talks_pure showing
      rw [List.append_nil, isTable]
      exact .onFile alive denoted asks

theorem open_talks {file : Name} (shows_ : Shows fs store) (alive : processes pid = some process) :
    Talks store (do
        let (reply, fdt) ← (do
          let (fd, fdt) ← sysOpen process.fdt file
          return (number fd, fdt) : FsM (Reply × Fdt))
        return (reply, Function.update processes pid (some { process with fdt := fdt }))) fs
      fun result talk _ => Asked processes (.openFile pid file) result.1 talk result.2 := by
  unfold sysOpen
  split
  · next long =>
      simp only [pure_bind]
      apply talks_pure shows_
      dsimp only
      rw [held_same alive]
      exact .openRefused alive fun short => short long
  · next short =>
      simp only [bind_assoc]
      apply talks_bind (talks_open shows_ file)
      intro found talk after next showing opened
      have asked := @Asked.openFile processes pid process file found alive short
      cases found with
      | none =>
          simp only [pure_bind]
          apply talks_pure showing
          rw [opened.1]
          exact asked
      | some key =>
          simp only [pure_bind]
          apply talks_pure showing
          rw [opened.1]
          exact asked

/-- Every step asks the store for what its process may ask for. -/
theorem serve_talks {action : Action} {program : FsM (Reply × Processes)}
    (inv : Inv tidy exclusive fs processes.held) (shows_ : Shows fs store) (proper : Proper action)
    (possible : serve processes action = some program) :
    Talks store program fs fun result talk _ =>
      Asked processes action result.1 talk result.2 := by
  cases action with
  | create pid file initialSize =>
      obtain ⟨process, alive, isProgram⟩ := Option.map_eq_some_iff.mp possible
      rw [← isProgram]
      unfold sysCreate
      split
      · next long =>
          simp only [pure_bind]
          exact talks_pure shows_ (.createRefused alive fun short => short long)
      · next short =>
          simp only [bind_assoc, pure_bind]
          apply talks_bind (create_talks shows_ proper.1 proper.2)
          intro made talk after next showing isTalk
          apply talks_pure showing
          rw [isTalk]
          exact .create alive short
  | remove pid file =>
      obtain ⟨process, alive, isProgram⟩ := Option.map_eq_some_iff.mp possible
      rw [← isProgram]
      unfold sysRemove
      split
      · next long =>
          simp only [pure_bind]
          exact talks_pure shows_ (.removeRefused alive fun short => short long)
      · next short =>
          simp only [bind_assoc, pure_bind]
          apply talks_bind (talks_one (remove_follows shows_))
          intro removed talk after next showing both
          apply talks_pure showing
          rw [both.1]
          exact .remove alive short
  | openFile pid file =>
      obtain ⟨process, alive, isProgram⟩ := Option.map_eq_some_iff.mp possible
      rw [← isProgram]
      exact open_talks shows_ alive
  | filesize pid fd =>
      obtain ⟨process, alive, isProgram⟩ := Option.map_eq_some_iff.mp possible
      rw [← isProgram]
      exact on_table_talks .filesize inv shows_ alive
  | read pid fd size input =>
      obtain ⟨process, alive, isProgram⟩ := Option.map_eq_some_iff.mp possible
      rw [← isProgram]
      exact on_table_talks (.read size input) inv shows_ alive
  | write pid fd buffer size =>
      obtain ⟨process, alive, isProgram⟩ := Option.map_eq_some_iff.mp possible
      rw [← isProgram]
      exact on_table_talks (.write buffer size) inv shows_ alive
  | seek pid fd position =>
      obtain ⟨process, alive, isProgram⟩ := Option.map_eq_some_iff.mp possible
      rw [← isProgram]
      exact on_table_talks (.seek position) inv shows_ alive
  | tell pid fd =>
      obtain ⟨process, alive, isProgram⟩ := Option.map_eq_some_iff.mp possible
      rw [← isProgram]
      exact on_table_talks .tell inv shows_ alive
  | close pid fd =>
      obtain ⟨process, alive, isProgram⟩ := Option.map_eq_some_iff.mp possible
      rw [← isProgram]
      exact on_table_talks .close inv shows_ alive
  | exec pid cmdLine =>
      obtain ⟨process, alive, isProgram⟩ := Option.map_eq_some_iff.mp possible
      rw [← isProgram]
      simp only [bind_assoc, pure_bind]
      apply talks_bind (exec_talks shows_)
      intro found talk after next showing execs
      obtain ⟨name, opened, word, isFound, isTalk⟩ := execs
      apply talks_pure showing
      rw [isTalk, isFound, List.append_nil]
      exact .exec alive word
  | exit pid =>
      obtain ⟨whole, isWhole, isProgram⟩ := Option.map_eq_some_iff.mp possible
      obtain ⟨process, alive, isInner⟩ := Option.map_eq_some_iff.mp isWhole
      rw [← isProgram, ← isInner]
      simp only [bind_assoc, pure_bind]
      apply talks_bind (exit_talks shows_ (slots_held inv shows_ alive)
        fun _ isExe => executable_held inv shows_ alive isExe)
      intro _ talk after next showing isTalk
      apply talks_pure showing
      rw [isTalk, List.append_nil]
      exact .exit alive
  | killed pid =>
      obtain ⟨whole, isWhole, isProgram⟩ := Option.map_eq_some_iff.mp possible
      obtain ⟨process, alive, isInner⟩ := Option.map_eq_some_iff.mp isWhole
      rw [← isProgram, ← isInner]
      exact talks_pure shows_ (.killed alive)
  | start pid command room =>
      obtain ⟨whole, isWhole, isProgram⟩ := Option.map_eq_some_iff.mp possible
      simp only [Action.perform] at isWhole
      split at isWhole
      · cases isWhole
      · next absent =>
          have none_ : processes pid = none := Option.not_isSome_iff_eq_none.mp absent
          rw [← isProgram, ← Option.some.inj isWhole]
          simp only [bind_assoc]
          apply talks_bind (load_talks command shows_)
          intro loaded talk after next showing loads
          have asked : Asked processes (.start pid command room) (number 0) talk
              (afterLoad processes pid loaded) := by
            cases loads with
            | inl unstarted =>
                rw [unstarted.1, unstarted.2]
                exact .notStarted none_
            | inr started =>
                obtain ⟨name, word, loads⟩ := started
                exact .start none_ word loads
          cases loaded with
          | failed =>
              apply talks_pure showing
              rw [List.append_nil]
              exact asked
          | exited =>
              apply talks_pure showing
              rw [List.append_nil]
              exact asked
          | success fileToExe =>
              apply talks_pure showing
              rw [List.append_nil]
              exact asked
  | extract fileName content =>
      simp only [serve, Action.perform, Option.map_some, Option.some.injEq] at possible
      rw [← possible]
      simp only [bind_assoc, pure_bind]
      apply talks_bind (extract_talks shows_ proper.1 proper.2)
      intro _ talk after next showing extracts
      obtain ⟨key, isTalk⟩ := extracts
      apply talks_pure showing
      rw [isTalk, List.append_nil]
      exact .extract

theorem serve_step_talks {system next : System} {action : Action} {reply : Reply}
    (inv : Inv tidy exclusive system.fs system.processes.held) (shows_ : Shows system.fs store)
    (proper : Proper action) (taken : serveStep system action = some (reply, next)) :
    ∃ talk after, Asked system.processes action reply talk next.processes ∧
      Runs store talk after ∧ Shows next.fs after := by
  obtain ⟨program, possible, ran⟩ := serve_ok taken
  obtain ⟨talk, after, runs, showing, asked⟩ := serve_talks inv shows_ proper possible _ _ ran
  exact ⟨talk, after, asked, runs, showing⟩

theorem step_inv {system next : System} {action : Action}
    (inv : Inv False False system.fs system.processes.held)
    (taken : step system action = some next) : Inv False False next.fs next.processes.held := by
  obtain ⟨program, possible, ran⟩ := step_ok taken
  exact (ends_ok (perform_ends inv possible False.elim False.elim) ran).1

theorem served_talks {system last : System} {run : List (Action × Reply)}
    (inv : Inv False False system.fs system.processes.held) (shows_ : Shows system.fs store)
    (proper : ∀ entry ∈ run, Proper entry.1) (served : Served system run last) :
    ∃ talk after, AskedAll system.processes run talk last.processes ∧ Runs store talk after ∧
      Shows last.fs after := by
  induction served generalizing store with
  | nil => exact ⟨[], store, .nil, .nil, shows_⟩
  | cons first later ih =>
      obtain ⟨talk, middle, asked, runs, showing⟩ :=
        serve_step_talks inv shows_ (proper _ List.mem_cons_self) first
      obtain ⟨rest, after, all, more, ends⟩ := ih (step_inv inv (serve_step first)) showing
        fun entry inside => proper entry (List.mem_cons_of_mem _ inside)
      exact ⟨talk ++ rest, after, .cons asked all, runs_append runs more, ends⟩

end Steps

theorem boots_shows {start : System} (boots : Boots start) (plenty : Plenty start.fs) :
    Shows start.fs emptyStore := by
  obtain ⟨⟨size, disk, memory, accepted, ran⟩, _⟩ := boots
  have small : size < 2 ^ 21 := by
    unfold IdeAccepts blockSectorSize at accepted
    omega
  obtain ⟨_, isMemory, _⟩ := filesys_init_format_ensures size disk memory small _ _ ran
  apply formatted_shows small _ ran
  intro request
  rw [← isMemory]
  exact plenty request

/-- With memory to spare, the processes share one store of files: in every run of the system each
step asks the store for what its process may ask for, its reply is made of the answers, and what
is on the device and open in the end is what is in the store. -/
theorem processes_share_store {start last : System} {run : List (Action × Reply)}
    (boots : Boots start) (plenty : Plenty start.fs) (proper : ∀ entry ∈ run, Proper entry.1)
    (served : Served start run last) :
    ∃ talk store, AskedAll start.processes run talk last.processes ∧ Runs emptyStore talk store ∧
      Shows last.fs store :=
  served_talks (boot_inv False False boots) (boots_shows boots plenty) proper served

theorem open_own_proper : ∀ action ∈ openOwn, Proper action := by
  intro action inside
  unfold openOwn startFirst at inside
  simp only [List.cons_append, List.nil_append, List.mem_cons, List.not_mem_nil, or_false] at inside
  obtain extracts | starts | opens := inside
  · rw [extracts]
    exact ⟨by decide +kernel, by decide⟩
  · rw [starts]
    trivial
  · rw [opens]
    trivial

theorem processes_share_store_open :
    ∃ run last, run.map Prod.fst = openOwn ∧ Served (booted 8) run last ∧
      ∃ talk store, AskedAll (booted 8).processes run talk last.processes ∧
        Runs emptyStore talk store ∧ Shows last.fs store := by
  cases ran : runWithin step (fun _ _ => True) (booted 8) openOwn with
  | none =>
      have possible : (runWithin step (fun _ _ => True) (booted 8) openOwn).isSome = true := by
        decide +kernel
      rw [ran] at possible
      cases possible
  | some last =>
      obtain ⟨run, isRun, served⟩ := served_of_run openOwn ran
      have proper : ∀ entry ∈ run, Proper entry.1 := by
        intro entry inside
        apply open_own_proper
        rw [← isRun]
        exact List.mem_map_of_mem inside
      exact ⟨run, last, isRun, served,
        processes_share_store eight_sectors_boot booted_plenty proper served⟩

end UtSystems.Userprog.StoreUsers
