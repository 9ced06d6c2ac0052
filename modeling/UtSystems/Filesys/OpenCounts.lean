import UtSystems.Filesys.Requests

/-!
# Opening an inode and closing it again

An inode that was open keeps its place in the list and counts one opener more; another one is
put in front of the list. Closing it undoes both, also when another inode was opened in
between.
-/

namespace UtSystems.Filesys.OpenCounts

open Lib.Effects Filesys.Volume Filesys.Inode Filesys.Directory Filesys.Consistency
open Filesys.OpenInodes Filesys.OpenFiles Filesys.Entries Filesys.NamedInodes Filesys.NamedFiles
open Filesys.FreeMap Filesys.Requests

set_option autoImplicit false

/-- One more opener, and perhaps more requests for memory. -/
inductive Reopened (fs : FileSys) (inode : Ptr) : FileSys → Prop where
  | again {target : Volume.Inode} {requests : Nat} (present : fs.inodes inode = some target)
      (positive : 0 < target.openCnt) (grown : fs.requests ≤ requests) :
      Reopened fs inode { fs with
        inodes := Function.update fs.inodes inode
          (some { target with openCnt := target.openCnt + 1 })
        requests := requests }
  | first {loaded : Volume.Inode} {requests : Nat} (absent : fs.inodes inode = none)
      (once : loaded.openCnt = 1) (kept : loaded.removed = false) (grown : fs.requests ≤ requests) :
      Reopened fs inode { fs with
        openInodes := inode :: fs.openInodes
        inodes := Function.update fs.inodes inode (some loaded)
        requests := requests }

section Closing

variable {fs middle next : FileSys} {inode other : Ptr} {target : Volume.Inode}

theorem reopened_requested (reopened : Reopened fs inode middle) (requested : Requested middle next) :
    Reopened fs inode next := by
  obtain ⟨requests, grown, rfl⟩ := requested
  cases reopened with
  | again present positive early => exact .again present positive (Nat.le_trans early grown)
  | first absent once kept early => exact .first absent once kept (Nat.le_trans early grown)

theorem requested_reopened (requested : Requested fs middle) (reopened : Reopened middle inode next) :
    Reopened fs inode next := by
  obtain ⟨requests, grown, rfl⟩ := requested
  cases reopened with
  | again present positive late => exact .again present positive (Nat.le_trans grown late)
  | first absent once kept late => exact .first absent once kept (Nat.le_trans grown late)

/-- The inode has an opener who is not the last. -/
theorem inode_close_shared (present : fs.inodes inode = some target) (shared : target.openCnt ≠ 1) :
    Returns (inodeClose (some inode)) fs fun _ next => next = { fs with
      inodes := Function.update fs.inodes inode
        (some { target with openCnt := target.openCnt - 1 }) } := by
  unfold inodeClose
  apply returns_bind (inode_at_returns present)
  rintro found _ ⟨rfl, rfl⟩
  apply returns_modify
  rw [if_neg (by omega : ¬found.openCnt - 1 = 0)]
  exact returns_pure rfl

theorem inode_close_last (present : fs.inodes inode = some target) (once : target.openCnt = 1)
    (kept : target.removed = false) :
    Returns (inodeClose (some inode)) fs fun _ next => next = { fs with
      openInodes := fs.openInodes.erase inode
      inodes := Function.update fs.inodes inode none } := by
  unfold inodeClose
  apply returns_bind (inode_at_returns present)
  rintro found _ ⟨rfl, rfl⟩
  apply returns_modify
  rw [if_pos (by omega : found.openCnt - 1 = 0)]
  unfold inodeDiscard
  apply returns_modify
  dsimp only
  rw [kept, if_neg Bool.false_ne_true]
  apply returns_modify_last
  dsimp only
  rw [Function.update_idem]

/-- Closing an inode undoes opening it. -/
theorem close_reopened (reopened : Reopened fs inode middle) :
    Returns (inodeClose (some inode)) middle fun _ next => Requested fs next := by
  cases reopened with
  | @again target requests present positive grown =>
      refine returns_mono (inode_close_shared (Function.update_self ..) ?_) ?_
      · dsimp only
        omega
      · rintro _ _ rfl
        have same : Function.update fs.inodes inode (some target) = fs.inodes :=
          Function.update_eq_self_iff.mpr present.symm
        refine ⟨requests, grown, ?_⟩
        dsimp only
        rw [Function.update_idem, Int.add_sub_cancel, same]
  | @first loaded requests absent once kept grown =>
      refine returns_mono (inode_close_last (Function.update_self ..) once kept) ?_
      rintro _ _ rfl
      have same : Function.update fs.inodes inode none = fs.inodes :=
        Function.update_eq_self_iff.mpr absent.symm
      refine ⟨requests, grown, ?_⟩
      dsimp only
      rw [Function.update_idem, List.erase_cons_head, same]

theorem reopened_elsewhere (reopened : Reopened fs inode next) (apart : other ≠ inode) :
    next.inodes other = fs.inodes other := by
  cases reopened with
  | again present positive grown => exact Function.update_of_ne apart _ _
  | first absent once kept grown => exact Function.update_of_ne apart _ _

/-- What was changed first is put back under another change. -/
theorem update_under {table : Ptr → Option Volume.Inode} {was during later : Option Volume.Inode}
    (apart : other ≠ inode) (before : table inode = was) :
    Function.update (Function.update (Function.update table inode during) other later) inode was =
      Function.update table other later := by
  have same : Function.update table inode was = table :=
    Function.update_eq_self_iff.mpr before.symm
  rw [Function.update_comm apart, Function.update_idem, same]

/-- Closing the inode that was opened first leaves the other one open. -/
theorem close_under_reopened (early : Reopened fs inode middle) (late : Reopened middle other next)
    (apart : other ≠ inode) :
    Returns (inodeClose (some inode)) next fun _ last =>
      Reopened fs other last ∧ Spent next last 0 := by
  have elsewhere : ∀ {change : Option Volume.Inode},
      Function.update fs.inodes inode change other = fs.inodes other :=
    Function.update_of_ne apart _ _
  have keeps := reopened_elsewhere late apart.symm
  cases early with
  | @again target requests present positive grown =>
      have found := keeps.trans (Function.update_self ..)
      refine returns_mono (inode_close_shared found (by dsimp only; omega)) ?_
      rintro _ _ rfl
      refine ⟨?_, rfl, rfl⟩
      cases late with
      | again here itsPositive later =>
          dsimp only at here ⊢
          rw [elsewhere] at here
          rw [Int.add_sub_cancel, update_under apart present]
          exact .again here itsPositive (Nat.le_trans grown later)
      | first absent once kept later =>
          dsimp only at absent ⊢
          rw [elsewhere] at absent
          rw [Int.add_sub_cancel, update_under apart present]
          exact .first absent once kept (Nat.le_trans grown later)
  | @first loaded requests absent once kept grown =>
      have found := keeps.trans (Function.update_self ..)
      refine returns_mono (inode_close_last found once kept) ?_
      rintro _ _ rfl
      refine ⟨?_, rfl, rfl⟩
      cases late with
      | again here itsPositive later =>
          dsimp only at here ⊢
          rw [elsewhere] at here
          rw [List.erase_cons_head, update_under apart absent]
          exact .again here itsPositive (Nat.le_trans grown later)
      | first missing itsOnce itsKept later =>
          dsimp only at missing ⊢
          rw [elsewhere] at missing
          rw [List.erase_cons_tail (by simpa using apart), List.erase_cons_head,
            update_under apart absent]
          exact .first missing itsOnce itsKept (Nat.le_trans grown later)

end Closing

section Opening

variable {inodes : Set Nat} {fs middle : FileSys} {held : Set Ptr} {extra : Ptr → Nat}
  {inode : Ptr}

theorem malloc_requested (fs : FileSys) : Ensures malloc fs fun _ next => Requested fs next := by
  refine ensures_returns (returns_mono (malloc_returns fs) ?_)
  rintro pointer _ ⟨rfl, _⟩
  exact ⟨fs.requests + 1, Nat.le_succ _, rfl⟩

theorem inode_reopen_again {target : Volume.Inode} (present : fs.inodes inode = some target)
    (positive : 0 < target.openCnt) :
    Ensures (inodeReopen inode) fs fun _ next => Reopened fs inode next := by
  unfold inodeReopen
  refine ensures_bind (ensures_returns (inode_at_returns present)) ?_
  rintro found _ ⟨rfl, rfl⟩
  rintro _ _ ⟨⟩
  exact .again present positive (Nat.le_refl _)

theorem inode_open_reopens (table : Table inodes fs held extra) (sector : Nat) :
    Ensures (inodeOpen sector) fs fun result next =>
      match result with
      | none => Requested fs next
      | some inode => Reopened fs inode next := by
  unfold inodeOpen
  apply ensures_get
  cases found : findOpen fs sector with
  | some inode =>
      obtain ⟨target, present, _⟩ := find_open_some found
      refine ensures_bind (inode_reopen_again present (table.counted _ _ present).positive) ?_
      intro _ next reopened
      exact ensures_pure reopened
  | none =>
      refine ensures_bind (ensures_returns (malloc_returns fs)) ?_
      rintro pointer _ ⟨rfl, isPointer⟩
      cases granted : fs.memory fs.requests with
      | false =>
          rw [isPointer, granted, if_neg Bool.false_ne_true]
          exact ensures_pure ⟨fs.requests + 1, Nat.le_succ _, rfl⟩
      | true =>
          rw [isPointer, granted, if_pos rfl]
          apply ensures_modify
          refine ensures_bind (block_read_same _ _) ?_
          rintro bytes _ rfl
          apply ensures_modify
          apply ensures_pure
          exact .first (inode_unused table) rfl rfl (Nat.le_succ _)

/-- `dir_open` of an inode that has just been opened. -/
theorem dir_open_reopens (reopened : Reopened fs inode middle) :
    Ensures (dirOpen (some inode)) middle fun result next =>
      match result with
      | none => Requested fs next
      | some dir => Reopened fs dir.inode next := by
  unfold dirOpen
  refine ensures_bind (malloc_requested middle) ?_
  intro pointer second requested
  have still := reopened_requested reopened requested
  cases pointer with
  | none =>
      refine ensures_bind (ensures_returns (close_reopened still)) ?_
      intro _ last undone
      exact ensures_pure undone
  | some address => exact ensures_pure still

theorem dir_open_root_reopens (table : Table inodes fs held extra) :
    Ensures dirOpenRoot fs fun result next =>
      match result with
      | none => Requested fs next
      | some dir => Reopened fs dir.inode next := by
  unfold dirOpenRoot
  refine ensures_bind (inode_open_reopens table rootDirSector) ?_
  intro result middle after
  cases result with
  | some inode => exact dir_open_reopens after
  | none =>
      unfold dirOpen
      refine ensures_bind (malloc_requested middle) ?_
      intro pointer second requested
      exact ensures_pure (requested_trans after requested)

/-- An opened inode is found in its sector only. -/
theorem find_open_reopened {next : FileSys} {target : Volume.Inode} {sector : Nat}
    (reopened : Reopened fs inode next) (its : next.inodes inode = some target)
    (elsewhere : target.sector ≠ sector) : findOpen next sector = findOpen fs sector := by
  have passes : ∀ other, ((next.inodes other).any fun found => found.sector == sector) =
      ((fs.inodes other).any fun found => found.sector == sector) := by
    intro other
    by_cases same : other = inode
    · have missed : (next.inodes inode).any (fun found => found.sector == sector) = false := by
        rw [its, Option.any_some, beq_eq_false_iff_ne]
        exact elsewhere
      rw [same, missed]
      cases reopened with
      | again present positive grown =>
          dsimp only at its
          rw [Function.update_self] at its
          cases its
          rw [present, Option.any_some]
          exact (beq_eq_false_iff_ne.mpr elsewhere).symm
      | first absent once kept grown =>
          rw [absent]
          rfl
    · rw [reopened_elsewhere reopened same]
  have same : findOpen next sector = next.openInodes.find? fun other =>
      (fs.inodes other).any fun found => found.sector == sector := by
    unfold findOpen
    congr 1
    funext other
    exact passes other
  rw [same]
  cases reopened with
  | again present positive grown => rfl
  | first absent once kept grown =>
      dsimp only
      rw [List.find?_cons_of_neg (by rw [absent]; exact Bool.false_ne_true)]
      rfl

/-- `file_open` of an inode that has been opened. -/
theorem file_open_reopens (reopened : Reopened fs inode middle) :
    Ensures (fileOpen (some inode)) middle fun result next =>
      match result with
      | none => Requested fs next ∧ ¬Granted middle 1
      | some _ => Granted middle 1 ∧ next.openInodes = middle.openInodes ∧
          next.inodes = middle.inodes := by
  unfold fileOpen
  refine ensures_bind (ensures_and (malloc_spends middle)
    (ensures_returns (malloc_returns middle))) ?_
  rintro pointer _ ⟨spends, rfl, _⟩
  cases pointer with
  | none =>
      have still := reopened_requested reopened
        (⟨middle.requests + 1, Nat.le_succ _, rfl⟩ : Requested middle _)
      refine ensures_bind (ensures_returns (close_reopened still)) ?_
      intro _ last undone
      apply ensures_pure
      exact ⟨undone, fun granted => Bool.false_ne_true (spends.granted.mpr granted)⟩
  | some file =>
      have granted := spends.granted.mp rfl
      apply ensures_modify
      exact ensures_pure ⟨granted, rfl, rfl⟩

end Opening

section Files

variable {inodes : Set Nat} {fs : FileSys} {extra : Ptr → Nat}

/-- The requests of `dir_lookup` for the entry at `index`. -/
def lookupRequests (place : Place) (fs : FileSys) (index : Nat) : Nat :=
  index + 1 + openRequests fs (entryAt place fs.disk index).inodeSector.toNat

theorem dir_lookup_outcome {place : Place} {dir : Dir} (opened : DirOpened place inodes fs extra dir)
    (name : Name) :
    Ensures (dirLookup dir (some name)) fs fun result next =>
      match result with
      | none => Requested fs next ∧
          ¬∃ index, FirstMatch place fs.disk name 0 index ∧ Granted fs (lookupRequests place fs index)
      | some inode => Reopened fs inode next ∧
          ∃ index, FirstMatch place fs.disk name 0 index ∧
            Granted fs (lookupRequests place fs index) ∧
            Spent fs next (lookupRequests place fs index) := by
  obtain ⟨target, present, isDir⟩ := opened.reached
  obtain ⟨its, _⟩ := dir_inode opened.sound opened.catalog present isDir
  unfold dirLookup
  refine ensures_bind (ensures_and (lookup_outcome its name)
    (ensures_returns (lookup_returns dir its name))) ?_
  rintro result middle ⟨outcome, requested, _⟩
  cases result with
  | none =>
      apply ensures_pure
      refine ⟨requested, ?_⟩
      rintro ⟨index, first, granted⟩
      exact outcome ⟨index, first, granted_fewer granted⟩
  | some found =>
      obtain ⟨index, first, granted, spent, isEntry⟩ := outcome
      have table := table_requested opened.sound.toTable requested
      have same : openRequests middle found.1.inodeSector.toNat =
          openRequests fs (entryAt place fs.disk index).inodeSector.toNat := by
        obtain ⟨_, _, rfl⟩ := requested
        rw [← isEntry]
        rfl
      intro result last ran
      have spends := inode_open_spends _ middle result last ran
      have reopens := inode_open_reopens table _ result last ran
      rw [same] at spends
      cases result with
      | none =>
          refine ⟨requested_trans requested reopens, ?_⟩
          rintro ⟨other, another, both⟩
          rw [← first_match_unique first another] at both
          exact Bool.false_ne_true (spends.granted.mpr ((granted_add spent).mp both).2)
      | some inode =>
          exact ⟨requested_reopened requested reopens, index, first,
            (granted_add spent).mpr ⟨granted, spends.granted.mp rfl⟩,
            spent_trans spent (spends.spent rfl)⟩

/-- The name is in the directory, and there is memory for `filesys_open` to read up to it and to
open its file. -/
def Found (fs : FileSys) (name : Name) : Prop :=
  ∃ index, FirstMatch rootPlace fs.disk name 0 index ∧
    Granted fs (rootRequests fs + (lookupRequests rootPlace fs index + 1))

theorem filesys_open_outcome (sound : Sound inodes fs Set.univ extra)
    (catalog : Catalog rootPlace inodes fs) (name : Name) :
    Ensures (filesysOpen (some name)) fs fun result next =>
      match result with
      | none => Requested fs next ∧ ¬Found fs name
      | some _ => Found fs name ∧ ∃ inode middle, Reopened fs inode middle ∧
          next.openInodes = middle.openInodes ∧ next.inodes = middle.inodes := by
  unfold filesysOpen
  refine ensures_bind (ensures_and (ensures_returns (dir_open_root_returns sound catalog))
    (ensures_and (dir_open_root_spends fs) (dir_open_root_reopens sound.toTable))) ?_
  rintro result first ⟨opens, rootSpends, reopens⟩
  cases result with
  | none =>
      refine ensures_returns (returns_mono (file_open_null first) ?_)
      rintro _ last ⟨rfl, requested⟩
      refine ⟨requested_trans reopens requested, ?_⟩
      rintro ⟨_, _, granted⟩
      exact Bool.false_ne_true (rootSpends.granted.mpr (granted_fewer granted))
  | some dir =>
      obtain ⟨begun, opened⟩ := opens
      have rootSpent := rootSpends.spent rfl
      have rootGranted := rootSpends.granted.mp rfl
      obtain ⟨root, rootHere, isRoot⟩ := opened.reached
      have same : ∀ {index}, FirstMatch rootPlace fs.disk name 0 index →
          lookupRequests rootPlace first index = lookupRequests rootPlace fs index := by
        intro index match_
        obtain ⟨_, _, notRoot, _⟩ := catalog.named index _ ⟨match_.inside, match_.matches_.1, rfl⟩
        unfold lookupRequests openRequests
        rw [begun.disk, find_open_reopened reopens rootHere]
        rw [isRoot]
        exact notRoot.symm
      refine ensures_bind (ensures_and (ensures_returns (dir_lookup_returns opened name))
        (dir_lookup_outcome opened name)) ?_
      rintro result second ⟨⟨looked, found⟩, outcome⟩
      rw [begun.disk] at outcome
      cases result with
      | none =>
          obtain ⟨requested, absent⟩ := outcome
          refine ensures_bind (ensures_returns
            (close_reopened (reopened_requested reopens requested))) ?_
          intro _ third undone
          refine ensures_returns (returns_mono (file_open_null third) ?_)
          rintro _ last ⟨rfl, more⟩
          refine ⟨requested_trans undone more, ?_⟩
          rintro ⟨index, match_, granted⟩
          refine absent ⟨index, match_, ?_⟩
          rw [same match_]
          exact granted_fewer ((granted_add rootSpent).mp granted).2
      | some inode =>
          obtain ⟨reopened, index, match_, granted, spent⟩ := outcome
          obtain ⟨_, target, here, other, bound, matches_, isNamed⟩ := found
          have apart : inode ≠ dir.inode := by
            rintro rfl
            obtain ⟨still, stillHere, sameSector⟩ := looked.persists _ root rootHere
            rw [here] at stillHere
            cases stillHere
            rw [begun.disk] at matches_ isNamed
            obtain ⟨_, _, notRoot, _⟩ := catalog.named other _ ⟨bound, matches_.1, rfl⟩
            exact notRoot (isNamed.symm.trans (sameSector.trans isRoot))
          refine ensures_bind (ensures_returns (close_under_reopened reopens reopened apart)) ?_
          rintro _ third ⟨only, free⟩
          intro result last ran
          have opens := file_open_reopens only result last ran
          have whole : Granted fs (rootRequests fs + (lookupRequests rootPlace fs index + 1)) ↔
              Granted third 1 := by
            rw [← same match_, granted_add rootSpent, granted_add (spent_free spent free)]
            exact ⟨fun all => all.2.2, fun last => ⟨rootGranted, granted, last⟩⟩
          cases result with
          | none =>
              refine ⟨opens.1, ?_⟩
              rintro ⟨another, first_, all⟩
              rw [← first_match_unique match_ first_] at all
              exact opens.2 (whole.mp all)
          | some file =>
              exact ⟨⟨index, match_, whole.mpr opens.1⟩, inode, third, only, opens.2⟩

end Files

end UtSystems.Filesys.OpenCounts
