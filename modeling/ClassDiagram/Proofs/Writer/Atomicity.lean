import ClassDiagram.Proofs.Drift.Comparison
import ClassDiagram.Proofs.Writer.Draft

/-! A write goes through as a whole or leaves the target alone, whichever of its operations fails.
The courses that a write can take are listed once, in `Course`; all that is said about a write is
read off them. -/

namespace ClassDiagram.Files.Workspace

theorem read_of_resolve {w : Workspace} {p : Path} {loc : Location} {bytes : Bytes}
    (ends : w.resolve p = .ok (.present loc (.file bytes))) : w.read p = .ok bytes := by
  rw [Workspace.read, entry, ends]

theorem read_eq_ok_iff {w : Workspace} {p : Path} {bytes : Bytes} :
    w.read p = .ok bytes ↔ w.resolve p = .ok (.present (w.location p) (.file bytes)) := by
  constructor
  · intro read
    unfold Workspace.read entry at read
    cases ends : w.resolve p with
    | error cause => rw [ends] at read; cases read
    | ok spot =>
      have there := loc_of_resolve ends
      rw [ends] at read
      cases spot with
      | free loc slashed => cases read
      | present loc entry =>
        cases entry with
        | folder => cases read
        | file contents => cases read; cases there; rfl
  · exact read_of_resolve

theorem holds_of_read {w : Workspace} {p : Path} {bytes : Bytes} (read : w.read p = .ok bytes) :
    w.holds p = true := by
  rw [holds, entry, read_eq_ok_iff.mp read]
  rfl

theorem find?_of_read {w : Workspace} {p : Path} {bytes : Bytes} (read : w.read p = .ok bytes) :
    w.tree.find? (w.location p) = some (.file bytes) :=
  holdsIn_of_resolve (read_eq_ok_iff.mp read)

theorem takesFile_of_moveTarget {w : Workspace} {p : Path} {loc : Location}
    (moves : w.moveTarget p = .ok loc) :
    ∃ spot, w.resolve p = .ok spot ∧ spot.takesFile ∧ spot.loc = loc := by
  unfold moveTarget at moves
  by_cases nul : hasNul p = true
  · rw [if_pos nul] at moves
    cases moves
  rw [if_neg nul] at moves
  cases ends : w.resolve p with
  | error cause => rw [ends] at moves; cases moves
  | ok spot =>
    rw [ends] at moves
    refine ⟨spot, rfl, ?_⟩
    cases spot with
    | present l entry =>
      simp only at moves
      split_ifs at moves
      cases entry with
      | folder => cases moves
      | file bytes => cases moves; exact ⟨rfl, rfl⟩
    | free l slashed =>
      simp only at moves
      split_ifs at moves with closed
      cases moves
      exact ⟨by simpa [Spot.takesFile] using closed, rfl⟩

end ClassDiagram.Files.Workspace

namespace ClassDiagram.Writer

open Files (Bytes Entry IoCause Location Spot Tree Workspace)
open Files.Workspace (read_of_resolve read_eq_ok_iff holds_of_read find?_of_read takesFile_of_moveTarget)

/-! ### The operations on a complete draft -/

def Draft.beside (d : Draft) (w : Workspace) (bytes : Bytes) : Workspace :=
  w.onTree (w.tree.place d.loc (.file bytes))

section

variable {faults : Faults} {w : Workspace} {target : Path} {d : Draft} {bytes : Bytes}

theorem Draft.Fresh.resolve_target (fresh : d.Fresh w target) (bytes : Bytes) :
    (d.beside w bytes).resolve target = w.resolve target := by
  obtain ⟨folder, name, loc, off⟩ := fresh.off
  rw [Draft.beside, loc]
  exact Files.Workspace.resolve_place_of_notMem off _

theorem Draft.Fresh.read_path (fresh : d.Fresh w target) (bytes : Bytes) :
    (d.beside w bytes).read d.path = .ok bytes :=
  read_of_resolve (Files.Workspace.resolve_place fresh.free rfl bytes)

theorem Draft.Fresh.read_target (fresh : d.Fresh w target) (bytes : Bytes) :
    (d.beside w bytes).read target = w.read target := by
  rw [Workspace.read, Workspace.entry, fresh.resolve_target]
  rfl

theorem Draft.Fresh.erase (fresh : d.Fresh w target) (bytes : Bytes) :
    (d.beside w bytes).tree.erase d.loc = w.tree :=
  Tree.erase_place (Files.Workspace.holdsIn_of_resolve fresh.free) _

theorem read_of_differs (draft : w.read d.path = .ok bytes)
    (same : differs faults w target d = .ok false) : w.read target = .ok bytes := by
  unfold differs at same
  split at same
  · split at same
    · cases same
    · obtain ⟨equal, compared, answer⟩ := Failure.bind_ok same
      have equal : equal = true := by simpa [pure, Except.pure] using answer
      subst equal
      obtain ⟨contents, readTarget, readDraft⟩ := Drift.read_of_filesEqual compared
      rw [readTarget, ← readDraft, draft]
  · cases same

theorem differs_of_read (faults : Faults) (read : w.read target = .ok bytes)
    (draft : w.read d.path = .ok bytes) :
    differs faults w target d =
      match faults.compare with
      | some cause => .error (Drift.fault target cause)
      | none => .ok false := by
  rw [differs, if_pos (holds_of_read read), Drift.filesEqual_of_read read draft]
  cases faults.compare with
  | some cause => rfl
  | none => simp [bind, pure, Except.bind, Except.pure]

theorem replace_ok {t : Tree} (done : replace faults w target d bytes = .ok t) :
    ∃ spot, w.resolve target = .ok spot ∧ spot.takesFile ∧
      t = (w.tree.erase d.loc).place spot.loc (.file bytes) := by
  unfold replace at done
  split at done
  · cases done
  · split at done
    · cases done
    · cases done
    · next moves =>
      cases done
      obtain ⟨spot, ends, takes, loc⟩ := takesFile_of_moveTarget moves
      exact ⟨spot, ends, takes, by rw [loc]⟩

end

/-! ### The courses of a write -/

/-- How it ends for a complete draft: the draft is dropped for a failure, or since the target holds
the bytes already, or it is moved over the target. -/
inductive Ending (w : Workspace) (target : Path) (bytes : Bytes) :
    Tree → Bool → Except Failure Outcome → Prop
  | dropped (failure : Failure) : Ending w target bytes w.tree false (.error failure)
  | kept (same : w.read target = .ok bytes) : Ending w target bytes w.tree false (.ok .unchanged)
  | replaced {spot : Spot} (ends : w.resolve target = .ok spot) (takes : spot.takesFile)
      (other : w.read target ≠ .ok bytes) :
      Ending w target bytes (w.tree.place (w.location target) (.file bytes)) true (.ok .written)

/-- What can happen once the folders are there. -/
inductive Course (w : Workspace) (target : Path) (bytes : Bytes) : Run → Prop
  | refused (failure : Failure) : Course w target bytes ⟨[], false, .error failure⟩
  | drafted {faults : Faults} {d : Draft}
      (made : draft faults w (targetFolder target) target = .ok d) (first second : Bytes)
      {t : Tree} {moved : Bool} {result : Except Failure Outcome}
      (ending : Ending w target bytes t moved result) :
      Course w target bytes
        ⟨[(d.beside w first).tree, (d.beside w second).tree, t], moved, result⟩

section

variable {w : Workspace} {target : Path} {d : Draft} {bytes : Bytes}

theorem settle_ending (fresh : d.Fresh w target) (faults : Faults) (bytes : Bytes) :
    ∃ t moved result, Ending w target bytes t moved result ∧
      settle faults (d.beside w bytes) target d bytes = ⟨[t], moved, result⟩ := by
  -- The comparison is made beside the draft, but it reads the target as it was without the draft.
  have draft := fresh.read_path bytes
  have same := fresh.read_target bytes
  unfold settle
  rw [fresh.erase]
  cases decided : differs faults (d.beside w bytes) target d with
  | error failure => exact ⟨_, _, _, .dropped failure, rfl⟩
  | ok different =>
    cases different with
    | false => exact ⟨_, _, _, .kept (same ▸ read_of_differs draft decided), rfl⟩
    | true =>
      have other : w.read target ≠ .ok bytes := by
        intro read
        rw [differs_of_read faults (same.trans read) draft] at decided
        split at decided <;> cases decided
      cases moved : replace faults (d.beside w bytes) target d bytes with
      | error failure => exact ⟨_, _, _, .dropped failure, rfl⟩
      | ok t =>
        obtain ⟨spot, ends, takes, tree⟩ := replace_ok moved
        rw [fresh.resolve_target] at ends
        rw [fresh.erase, Files.Workspace.loc_of_resolve ends] at tree
        exact ⟨_, _, _, .replaced ends takes other, by rw [tree]⟩

theorem save_course (faults : Faults) (w : Workspace) (target : Path) (bytes : Bytes) :
    Course w target bytes (save faults w target bytes) := by
  unfold save
  cases made : draft faults w (targetFolder target) target with
  | error cause => exact .refused _
  | ok d =>
    have fresh := draft_fresh made
    unfold fill
    cases faults.fill with
    | some fault =>
      obtain ⟨count, cause⟩ := fault
      have erased : (w.tree.place d.loc (.file (bytes.take count))).erase d.loc = w.tree :=
        fresh.erase (bytes.take count)
      simp only [erased]
      exact .drafted made [] (bytes.take count) (.dropped _)
    | none =>
      obtain ⟨t, moved, result, ending, settled⟩ := settle_ending fresh faults bytes
      have course := Course.drafted made [] bytes ending
      rw [Draft.beside] at settled
      simp only [settled]
      exact course

end

def parents (w : Workspace) (target : Path) : Location → Prop :=
  w.Along (targetFolder target).ancestors

theorem mem_makeFolders {faults : Faults} {w : Workspace} {folder : Path} {t : Tree}
    (made : t ∈ (makeFolders faults w folder).1) : t ∈ (w.makeFolders folder).1 := by
  unfold makeFolders at made
  split at made
  · exact List.mem_of_mem_take made
  · exact made

def folders (faults : Faults) (w : Workspace) (target : Path) : List Tree :=
  (makeFolders faults w (targetFolder target)).1

/-- A write makes folders, and then takes one of its courses in the tree that has them. -/
theorem run_course (faults : Faults) (w : Workspace) (target : Path) (content : String) :
    ∃ r, Course (w.onTree (latest w.tree (folders faults w target))) target
        (Workspace.utf8 content) r ∧
      run faults w target content = r.after (folders faults w target) := by
  unfold run folders
  obtain ⟨trees, cause⟩ := makeFolders faults w (targetFolder target)
  cases cause with
  | some cause => exact ⟨_, .refused _, rfl⟩
  | none => exact ⟨_, save_course faults _ target _, rfl⟩

/-! ### What a write leaves -/

section

variable {w : Workspace} {target : Path} {bytes : Bytes} {t : Tree} {moved : Bool}
  {result : Except Failure Outcome}

theorem Ending.failed {failure : Failure} (ending : Ending w target bytes t moved (.error failure)) :
    t = w.tree := by
  cases ending
  rfl

theorem Ending.read {outcome : Outcome} (ending : Ending w target bytes t moved (.ok outcome)) :
    (w.onTree t).read target = .ok bytes := by
  cases ending with
  | kept same => exact same
  | replaced ends takes other =>
    rw [← Files.Workspace.loc_of_resolve ends]
    exact read_of_resolve (Files.Workspace.resolve_place ends takes bytes)

theorem Ending.unchanged_iff {outcome : Outcome}
    (ending : Ending w target bytes t moved (.ok outcome)) :
    outcome = .unchanged ↔ w.tree.find? (w.location target) = some (.file bytes) := by
  cases ending with
  | kept same => simpa using find?_of_read same
  | @replaced spot ends takes other =>
    have there := Files.Workspace.loc_of_resolve ends
    have held := Files.Workspace.holdsIn_of_resolve ends
    refine iff_of_false (by simp) fun found => ?_
    rw [← there] at found
    cases spot with
    | free loc slashed => exact absurd (held.symm.trans found) (by simp)
    | present loc entry =>
      cases entry with
      | folder => cases takes
      | file contents =>
        cases held.symm.trans found
        exact other (read_of_resolve ends)

theorem Ending.moved_iff (ending : Ending w target bytes t moved result) :
    moved = true ↔ result = .ok .written := by
  cases ending <;> simp

theorem Ending.find?_other (ending : Ending w target bytes t moved result) {loc : Location}
    (other : loc ≠ w.location target) : t.find? loc = w.tree.find? loc := by
  cases ending with
  | dropped | kept => rfl
  | replaced => exact Tree.find?_place_other _ other _

theorem Ending.find?_target (ending : Ending w target bytes t moved result) :
    t.find? (w.location target) = w.tree.find? (w.location target) ∨
      t.find? (w.location target) = some (.file bytes) := by
  cases ending with
  | dropped | kept => exact .inl rfl
  | replaced ends takes other =>
    exact .inr (find?_of_read (Ending.replaced ends takes other).read)

theorem Course.find?_target {r : Run} (course : Course w target bytes r) {t : Tree}
    (mem : t ∈ r.trees) :
    t.find? (w.location target) = w.tree.find? (w.location target) ∨
      t.find? (w.location target) = some (.file bytes) := by
  cases course with
  | refused => cases mem
  | @drafted faults d made first second last moved result ending =>
    have apart : ∀ contents, (d.beside w contents).tree.find? (w.location target) =
        w.tree.find? (w.location target) := fun contents =>
      Tree.find?_place_other _ (draft_fresh made).loc_ne.symm _
    simp only [List.mem_cons, List.not_mem_nil, or_false] at mem
    rcases mem with rfl | rfl | rfl
    · exact .inl (apart first)
    · exact .inl (apart second)
    · exact ending.find?_target

theorem Course.ending {r : Run} (course : Course w target bytes r) :
    Ending w target bytes (latest w.tree r.trees) r.moved r.result := by
  cases course with
  | refused failure => exact .dropped failure
  | drafted made first second ending => exact ending

theorem settle_of_read (fresh : d.Fresh w target) (same : w.read target = .ok bytes)
    (oldReads newReads : List Drift.ReadEvent) :
    settle (.reads oldReads newReads) (d.beside w bytes) target d bytes =
      ⟨[w.tree], false, .ok .unchanged⟩ := by
  rw [← fresh.read_target bytes] at same
  rw [settle, differs_of_read (.reads oldReads newReads) same (fresh.read_path bytes), fresh.erase]
  rfl

theorem run_of_read {faults : Faults} {content : String}
    (made : draft faults w (targetFolder target) target = .ok d)
    (same : w.read target = .ok (Workspace.utf8 content)) (oldReads newReads : List Drift.ReadEvent) :
    run (.reads oldReads newReads) w target content =
      ⟨[(d.beside w []).tree, (d.beside w (Workspace.utf8 content)).tree, w.tree], false,
        .ok .unchanged⟩ := by
  have settled := settle_of_read (draft_fresh made) same oldReads newReads
  obtain ⟨_, names, slashed, list, rest⟩ := draft_ok_iff.mp made
  have again : draft (.reads oldReads newReads) w (targetFolder target) target = .ok d :=
    draft_ok_iff.mpr ⟨rfl, names, slashed, list, rest⟩
  obtain ⟨loc, ends, _⟩ := Files.Workspace.folder_of_list list
  have folders : makeFolders (.reads oldReads newReads) w (targetFolder target) = ([], none) :=
    Files.Workspace.makeFolders_of_folder ends
  have filled : fill (.reads oldReads newReads) w target d (Workspace.utf8 content) =
      ⟨[(d.beside w []).tree, (d.beside w (Workspace.utf8 content)).tree, w.tree], false,
        .ok .unchanged⟩ :=
    congrArg (Run.after [_, _]) settled
  have saved : save (.reads oldReads newReads) w target (Workspace.utf8 content) =
      fill (.reads oldReads newReads) w target d (Workspace.utf8 content) := by
    rw [save, again]
  rw [run, folders]
  exact congrArg (Run.after []) (saved.trans filled)

theorem Course.again {r : Run} {outcome : Outcome} {content : String}
    (course : Course w target (Workspace.utf8 content) r) (done : r.result = .ok outcome)
    (oldReads newReads : List Drift.ReadEvent) :
    (run (.reads oldReads newReads) (w.onTree (latest w.tree r.trees)) target content).result =
        .ok .unchanged ∧
      latest (latest w.tree r.trees)
          (run (.reads oldReads newReads) (w.onTree (latest w.tree r.trees)) target content).trees =
        latest w.tree r.trees := by
  cases course with
  | refused => cases done
  | @drafted faults d made first second t moved result ending =>
    subst done
    have read := ending.read
    -- The folder holds the same names but for the target's own, so the draft gets its old name.
    have remade : draft faults (w.onTree t) (targetFolder target) target = .ok d := by
      cases ending with
      | kept same => exact made
      | replaced ends takes other =>
        rw [← Files.Workspace.loc_of_resolve ends]
        exact draft_place made ends takes _ faults (draft_ok_iff.mp made).1
    have second := run_of_read remade read oldReads newReads
    simp only [latest, List.getLastD_cons, List.getLastD_nil]
    rw [second]
    exact ⟨rfl, rfl⟩

end

theorem latest_append (before : Tree) (trees more : List Tree) :
    latest before (trees ++ more) = latest (latest before trees) more := by
  rcases List.eq_nil_or_concat more with rfl | ⟨front, last, rfl⟩
  · rw [List.append_nil]
    rfl
  · rw [List.concat_eq_append, ← List.append_assoc, latest, latest, List.getLastD_concat,
      List.getLastD_concat]

/-- Nothing was at the target, and it has become a folder, being one of its own parents. -/
structure Opened (w : Workspace) (target : Path) (t : Tree) : Prop where
  absent : w.tree.find? (w.location target) = none
  made : t.find? (w.location target) = some .folder
  inside : parents w target (w.location target)

/-- What a write owes its target and everything else. -/
structure Atomic (w : Workspace) (target : Path) (content : String) (r : Run) : Prop where
  /-- At any time the target holds what it held or the whole content. -/
  always : ∀ t ∈ r.trees,
    t.find? (w.location target) = w.tree.find? (w.location target) ∨
      t.find? (w.location target) = some (.file (Workspace.utf8 content)) ∨ Opened w target t
  failed : ∀ failure, r.result = .error failure →
    (latest w.tree r.trees).find? (w.location target) = w.tree.find? (w.location target) ∨
      Opened w target (latest w.tree r.trees)
  succeeded : ∀ outcome, r.result = .ok outcome →
    (w.onTree (latest w.tree r.trees)).read target = .ok (Workspace.utf8 content) ∧
      (latest w.tree r.trees).find? (w.location target) =
        some (.file (Workspace.utf8 content))
  unchanged : ∀ outcome, r.result = .ok outcome →
    (outcome = .unchanged ↔
      w.tree.find? (w.location target) = some (.file (Workspace.utf8 content)))
  moved : r.moved = true ↔ r.result = .ok .written
  /-- All else is as it was, but for new folders that lead to the target. -/
  others : ∀ loc ≠ w.location target,
    (latest w.tree r.trees).find? loc = w.tree.find? loc ∨
      w.tree.find? loc = none ∧ (latest w.tree r.trees).find? loc = some .folder ∧
        parents w target loc
  again : ∀ outcome oldReads newReads, r.result = .ok outcome →
    let w' := w.onTree (latest w.tree r.trees)
    let r' := run (.reads oldReads newReads) w' target content
    r'.result = .ok .unchanged ∧ latest w'.tree r'.trees = w'.tree

theorem folders_grow (faults : Faults) (w : Workspace) (target : Path) :
    ∀ t ∈ folders faults w target, Tree.Grows (parents w target) w.tree t :=
  fun _ mem => Files.Workspace.makeFolders_grows (mem_makeFolders mem)

/-- What a course owes, taken in a tree that has gained folders on the way to the target and nothing
else. -/
theorem Course.atomic {w : Workspace} {target : Path} {content : String} {r : Run} {trees : List Tree}
    (grow : ∀ t ∈ trees, Tree.Grows (parents w target) w.tree t)
    (course : Course (w.onTree (latest w.tree trees)) target (Workspace.utf8 content) r) :
    Atomic w target content (r.after trees) := by
  have grown : Tree.Grows (parents w target) w.tree (latest w.tree trees) :=
    Tree.grows_getLastD grow
  have last : latest w.tree (r.after trees).trees = latest (latest w.tree trees) r.trees :=
    latest_append w.tree trees r.trees
  have ending := course.ending
  have opened : ∀ {t : Tree}, Tree.Grows (parents w target) w.tree t →
      t.find? (w.location target) = w.tree.find? (w.location target) ∨ Opened w target t :=
    fun grows => (grows _).imp_right fun ⟨absent, made, inside⟩ => ⟨absent, made, inside⟩
  constructor
  · intro t mem
    rcases List.mem_append.mp mem with folder | later
    · exact (opened (grow t folder)).imp_right .inr
    · rcases course.find?_target later with kept | put
      · rcases opened grown with same | ⟨absent, made, inside⟩
        · exact .inl (kept.trans same)
        · exact .inr (.inr ⟨absent, kept.trans made, inside⟩)
      · exact .inr (.inl put)
  · intro failure error
    have unmoved := (error ▸ ending).failed
    rw [last]
    exact unmoved ▸ opened grown
  · intro outcome done
    have read := (done ▸ ending).read
    rw [last]
    exact ⟨read, find?_of_read read⟩
  · intro outcome done
    exact (done ▸ ending).unchanged_iff.trans (grown.find?_file _ _)
  · exact ending.moved_iff
  · intro loc other
    rw [last]
    exact (ending.find?_other other).symm ▸ grown loc
  · intro outcome oldReads newReads done
    have again := course.again done oldReads newReads
    simp only [last]
    exact again

theorem run_atomic (faults : Faults) (w : Workspace) (target : Path) (content : String) :
    Atomic w target content (run faults w target content) := by
  obtain ⟨r, course, whole⟩ := run_course faults w target content
  rw [whole]
  exact course.atomic (folders_grow faults w target)

section

variable {faults : Faults} {w : Workspace} {target : Path} {content : String} {outcome : Outcome}

theorem read_of_run (done : (run faults w target content).result = .ok outcome) :
    (w.onTree (latest w.tree (run faults w target content).trees)).read target =
      .ok (Workspace.utf8 content) := by
  obtain ⟨r, course, whole⟩ := run_course faults w target content
  rw [whole] at done ⊢
  exact ((course.atomic (folders_grow faults w target)).succeeded outcome done).1

theorem write_again {w' : Workspace} (written : writeUnder faults w target content = (w', .ok outcome)) :
    write w' target content = (w', .ok .unchanged) := by
  obtain ⟨rfl, done⟩ := Prod.mk.inj written
  obtain ⟨r, course, whole⟩ := run_course faults w target content
  rw [whole] at done ⊢
  obtain ⟨unchanged, same⟩ :=
    (course.atomic (folders_grow faults w target)).again outcome [] [] done
  exact Prod.ext (congrArg (Workspace.onTree _) same) unchanged

end

/-- The parent of this target is the target's own place: it is made, and then it is in the way. -/
theorem parent_made_at_target :
    let w : Workspace := ⟨.empty, []⟩
    let r := run .none w ⟨"a/../a"⟩ "x"
    r.result = .error (.io ⟨"a/../a"⟩ .isFolder) ∧
      w.tree.find? (w.location ⟨"a/../a"⟩) = none ∧
      (latest w.tree r.trees).find? (w.location ⟨"a/../a"⟩) = some .folder := by
  decide +kernel

end ClassDiagram.Writer
