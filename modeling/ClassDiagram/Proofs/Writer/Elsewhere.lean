import ClassDiagram.Proofs.Files.Inside
import ClassDiagram.Proofs.Writer.Atomicity

/-! A write does not depend on what lies elsewhere. Two trees that hold the same but at one place, and
are folders at the same places, lead every path to the same that does not end at that place or lead
through it; and a write to another target goes the same way in both. -/

namespace ClassDiagram

namespace Files

variable {t t' : Tree} {place : Location}

/-- Trees that hold the same at all places but one, and have the same folders. -/
structure Tree.Apart (place : Location) (t t' : Tree) : Prop where
  others : ∀ loc ≠ place, t'.find? loc = t.find? loc
  folder : t'.find? place = some .folder ↔ t.find? place = some .folder

namespace Tree.Apart

theorem refl (place : Location) (t : Tree) : Apart place t t := ⟨fun _ _ => rfl, .rfl⟩

theorem find?_folder (apart : Apart place t t') (loc : Location) :
    t'.find? loc = some .folder ↔ t.find? loc = some .folder := by
  by_cases same : loc = place
  · rw [same]
    exact apart.folder
  · rw [apart.others loc same]

theorem keepsFolders (apart : Apart place t t') : t.KeepsFolders t' :=
  fun loc found => (apart.find?_folder loc).mpr found

theorem symm (apart : Apart place t t') : Apart place t' t :=
  ⟨fun loc other => (apart.others loc other).symm, apart.folder.symm⟩

end Tree.Apart

namespace Workspace

open ClassDiagram.Files.Tree (Apart)

variable {w : Workspace} {p : Path} {name : String} {loc l : Location} {segments : List String}

theorem Leads.folder_of_mem_visits (leads : Leads t loc segments (.present l .folder)) :
    ∀ passed ∈ visits loc segments, t.find? passed = some .folder := by
  generalize ends : Spot.present l .folder = spot at leads
  induction leads with
  | stop => simp [visits]
  | idle idle _ ih =>
    rw [visits, if_pos idle]
    exact ih ends
  | up _ ih =>
    rw [visits, if_neg (by decide), if_pos rfl]
    exact ih ends
  | down named found _ ih =>
    rw [visits, if_neg (by simp [named.notIdle]), if_neg named.notUp]
    exact List.forall_mem_cons.mpr ⟨found, ih ends⟩
  | file => cases ends
  | free => cases ends

theorem Reached.folder_of_mem_visited (reached : w.Reached p) :
    ∀ passed ∈ w.visited p, w.tree.find? passed = some .folder := by
  obtain ⟨l, leads⟩ := reached
  rw [visited_eq]
  exact leads.folder_of_mem_visits

theorem visited_of_apart (apart : Apart place w.tree t) (reached : w.Reached p) :
    ∀ passed ∈ w.visited p, t.find? passed = w.tree.find? passed := fun passed mem =>
  have folder := reached.folder_of_mem_visited passed mem
  ((apart.find?_folder passed).mpr folder).trans folder.symm

theorem resolve_reached_of_apart (apart : Apart place w.tree t) (reached : w.Reached p) :
    (w.onTree t).resolve p = w.resolve p :=
  resolve_congr (visited_of_apart apart reached)

theorem resolve_of_apart (apart : Apart place w.tree t) (reached : w.Reached p)
    (proper : ProperName name) (other : w.location (p.joinName name) ≠ place) :
    (w.onTree t).resolve (p.joinName name) = w.resolve (p.joinName name) := by
  refine resolve_congr fun passed mem => ?_
  rw [visited_joinName _ _ proper.noSlash] at mem
  rcases List.mem_append.mp mem with before | last
  · exact visited_of_apart apart reached passed before
  · rw [location_of_proper _ proper] at other
    rw [visits, if_neg (by simp [proper.notIdle]), if_neg proper.notUp] at last
    rw [List.mem_singleton.mp last]
    exact apart.others _ other

theorem present_of_apart (apart : Apart place w.tree t) (other : w.location p ≠ place) {e : Entry}
    (ends : w.resolve p = .ok (.present l e)) : (w.onTree t).resolve p = .ok (.present l e) := by
  have here : l = w.location p := loc_of_resolve ends
  refine resolve_of_keepsFolders apart.keepsFolders ends ?_
  cases e with
  | folder => trivial
  | file bytes =>
    have held : w.tree.find? l = some (.file bytes) := holdsIn_of_resolve ends
    exact (apart.others l (here ▸ other)).trans held

theorem present_iff_of_apart (apart : Apart place w.tree t) (other : w.location p ≠ place) {e : Entry} :
    (w.onTree t).resolve p = .ok (.present l e) ↔ w.resolve p = .ok (.present l e) :=
  ⟨fun ends => present_of_apart (w := w.onTree t) apart.symm other ends,
    present_of_apart apart other⟩

theorem holds_of_apart (apart : Apart place w.tree t) (other : w.location p ≠ place) :
    (w.onTree t).holds p = w.holds p := by
  rw [Bool.eq_iff_iff, holds_iff, holds_iff]
  simp only [present_iff_of_apart apart other]

theorem isFile_of_apart (apart : Apart place w.tree t) (other : w.location p ≠ place) :
    (w.onTree t).isFile p = w.isFile p := by
  rw [Bool.eq_iff_iff, isFile_iff, isFile_iff]
  simp only [present_iff_of_apart apart other]

theorem read_of_apart (apart : Apart place w.tree t) (other : w.location p ≠ place) :
    ((w.onTree t).read p).toOption = (w.read p).toOption := by
  refine Option.ext fun bytes => ?_
  have file : ∀ w : Workspace, (w.read p).toOption = some bytes ↔
      w.resolve p = .ok (.present (w.location p) (.file bytes)) := by
    intro w
    rw [← read_eq_ok_iff]
    cases w.read p <;> simp [Except.toOption]
  rw [file, file]
  exact present_iff_of_apart apart other

end Workspace

end Files

namespace Writer

open Files (Bytes IoCause Location ProperName Tree Workspace)
open ClassDiagram.Files.Tree (Apart)
open Files.Workspace (Askable Reached resolve_reached_of_apart resolve_of_apart)

variable {w w' : Workspace} {target p : Path} {bytes : Bytes} {t : Tree} {moved : Bool}
  {place : Location} {name : String} {d : Draft} {result : Except Failure Outcome}

theorem Ending.apart (ending : Ending w target bytes t moved result) :
    Apart (w.location target) w.tree t where
  others _ other := ending.find?_other other
  folder := by
    constructor
    · intro found
      cases ending with
      | dropped | kept => exact found
      | replaced ends takes other =>
        have read := (Ending.replaced ends takes other).read
        exact absurd ((Files.Workspace.find?_of_read read).symm.trans found) (by simp)
    · intro found
      cases ending with
      | dropped | kept => exact found
      | replaced ends takes _ =>
        have notFolder := Files.Spot.not_folder_of_takesFile (Files.Workspace.holdsIn_of_resolve ends)
          takes
        rw [Files.Workspace.loc_of_resolve ends] at notFolder
        exact absurd found notFolder

/-! ### The name of the draft -/

theorem proper_draftName (k : Nat) : ProperName (draftName k) := by
  have long := length_draftName k
  have ne : ∀ name : String, name.length < 10 → draftName k ≠ name := by
    rintro _ short rfl
    omega
  refine ⟨?_, ne ".." (by decide), slash_notMem_draftName k⟩
  simp [Path.isIdle, ne "" (by decide), ne "." (by decide)]

def Undrafted (place : Location) : Prop := ∀ folder k, place ≠ folder ++ [draftName k]

theorem mem_names_of_apart (apart : Apart place w.tree t) (undrafted : Undrafted place)
    (folder : Location) (k : Nat) : draftName k ∈ t.names folder ↔ draftName k ∈ w.tree.names folder := by
  have other : folder ++ [draftName k] ≠ place := (undrafted folder k).symm
  rw [Tree.mem_names, Tree.mem_names, ← Tree.find?_isSome_iff (by simp), ← Tree.find?_isSome_iff (by simp),
    apart.others _ other]

theorem draft_of_apart (apart : Apart place w.tree t) (undrafted : Undrafted place) {folder : Path}
    (reached : w.Reached folder) (faults : Faults) (target : Path) :
    draft faults (w.onTree t) folder target = draft faults w folder target := by
  have resolves := resolve_reached_of_apart apart reached
  unfold draft Workspace.list
  rw [resolves]
  cases faults.create with
  | some cause => rfl
  | none =>
    rcases w.resolve folder with cause | ⟨loc, bytes | _⟩ | ⟨loc, slashed⟩
    · rfl
    · rfl
    · have taken : ∀ k, draftName k ∈ w.cwd ++ target.segments ++ t.names loc ↔
          draftName k ∈ w.cwd ++ target.segments ++ w.tree.names loc := by
        intro k
        simp only [List.mem_append, mem_names_of_apart apart undrafted]
      have path : draftPath (w.onTree t) folder target (t.names loc) =
          draftPath w folder target (w.tree.names loc) := congrArg folder.joinName (freshName_congr taken)
      obtain ⟨k, fresh, _⟩ := freshName_least (w.cwd ++ target.segments ++ w.tree.names loc)
      have other : w.location (folder.joinName (draftName k)) ≠ place := by
        rw [Files.Workspace.location_of_proper _ (proper_draftName k)]
        exact (undrafted _ k).symm
      have leads : (w.onTree t).resolve (draftPath w folder target (w.tree.names loc)) =
          w.resolve (draftPath w folder target (w.tree.names loc)) := by
        rw [draftPath, fresh]
        exact resolve_of_apart apart reached (proper_draftName k) other
      have names : (w.onTree t).tree.names loc = t.names loc := rfl
      have cwd : (w.onTree t).cwdPath = w.cwdPath := rfl
      simp only [names, cwd, path, leads]
    · rfl

/-! ### The write -/

theorem settle_congr (faults : Faults) (draft : w'.resolve d.path = w.resolve d.path)
    (same : w'.resolve target = w.resolve target) :
    (settle faults w' target d bytes).result = (settle faults w target d bytes).result := by
  have equal : ∀ events events', Drift.filesEqual w' target d.path events events' =
      Drift.filesEqual w target d.path events events' := by
    intro events events'
    simp only [Drift.filesEqual, Drift.size, Drift.bytes, Workspace.size, Workspace.read,
      Workspace.entry, draft, same]
  have holds : w'.holds target = w.holds target := by
    simp only [Workspace.holds, Workspace.entry, same]
  have differ : differs faults w' target d = differs faults w target d := by
    simp only [differs, holds, equal]
  have moves : w'.moveTarget target = w.moveTarget target := by
    rw [Workspace.moveTarget, same, Workspace.moveTarget]
  have permissions : keepPermissions faults w' target d = keepPermissions faults w target d := by
    simp only [keepPermissions, holds]
  unfold settle
  rw [differ]
  cases differs faults w target d with
  | error failure => rfl
  | ok different =>
    cases different with
    | false => rfl
    | true =>
      simp only [replace, permissions, moves]
      cases keepPermissions faults w target d with
      | error failure => rfl
      | ok _ =>
        cases faults.replace with
        | some cause => rfl
        | none => cases w.moveTarget target <;> rfl

theorem save_of_apart (apart : Apart place w.tree t) (undrafted : Undrafted place)
    (reached : w.Reached (targetFolder target))
    (same : (w.onTree t).resolve target = w.resolve target) (faults : Faults) (bytes : Bytes) :
    (save faults (w.onTree t) target bytes).result = (save faults w target bytes).result := by
  unfold save
  rw [draft_of_apart apart undrafted reached]
  cases made : draft faults w (targetFolder target) target with
  | error cause => rfl
  | ok d =>
    have made' := made
    rw [← draft_of_apart apart undrafted reached] at made'
    have fresh := draft_fresh made
    have fresh' := draft_fresh made'
    unfold fill
    cases faults.fill with
    | some fault => rfl
    | none =>
      show (settle faults (d.beside (w.onTree t) bytes) target d bytes).result =
        (settle faults (d.beside w bytes) target d bytes).result
      refine settle_congr faults ?_ ?_
      · exact (Files.Workspace.resolve_place fresh'.free rfl bytes).trans
          (Files.Workspace.resolve_place fresh.free rfl bytes).symm
      · rw [fresh.resolve_target, fresh'.resolve_target, same]

theorem makeFolders_of_apart (apart : Apart place w.tree t) {folder : Path}
    (reached : w.Reached folder) : (w.onTree t).makeFolders folder = w.makeFolders folder := by
  have same := resolve_reached_of_apart apart reached
  obtain ⟨rest, chain⟩ := List.head?_eq_some_iff.mp folder.ancestors_head
  by_cases askable : Askable folder
  · have ends : w.resolve folder = .ok (.present _ .folder) :=
      Files.Workspace.resolve_ok_iff.mpr ⟨askable, reached.leads.of_steps⟩
    rw [Files.Workspace.makeFolders_of_folder ends,
      Files.Workspace.makeFolders_of_folder (same.trans ends)]
  · by_cases empty : folder.text = ""
    · simp [Workspace.makeFolders, chain, Workspace.unmade, empty, Workspace.makeEach]
    · obtain refused | refused : w.resolve folder = .error .nulInPath ∨
          w.resolve folder = .error .nameTooLong := by
        rw [Files.Workspace.resolve_eq]
        split_ifs with nul none long
        · exact .inl rfl
        · exact absurd (by simpa using none) empty
        · exact .inr rfl
        · exact absurd ⟨by simpa using nul, empty, Nat.not_lt.mp long⟩ askable
      · simp [Workspace.makeFolders, chain, Workspace.unmade, empty, Workspace.makeFolder, same, refused]
      · simp [Workspace.makeFolders, chain, Workspace.unmade, empty, Workspace.makeFolder, same, refused]

theorem run_of_apart (apart : Apart place w.tree t) (undrafted : Undrafted place)
    (reached : w.Reached p) (proper : ProperName name) (other : w.location (p.joinName name) ≠ place)
    (faults : Faults) (content : String) :
    (run faults (w.onTree t) (p.joinName name) content).result =
      (run faults w (p.joinName name) content).result := by
  have folder := reached_targetFolder reached proper
  have same := resolve_of_apart apart reached proper other
  have saved := save_of_apart apart undrafted folder same faults (Workspace.utf8 content)
  have folders : makeFolders faults (w.onTree t) (targetFolder (p.joinName name)) =
      makeFolders faults w (targetFolder (p.joinName name)) := by
    rw [makeFolders, makeFolders, makeFolders_of_apart apart folder]
  have none : (makeFolders faults w (targetFolder (p.joinName name))).1 = [] := by
    have made := Files.Workspace.makeFolders_of_reached folder
    unfold makeFolders
    split <;> simp [made]
  rw [run, run, folders]
  generalize makeFolders faults w (targetFolder (p.joinName name)) = made at none
  obtain ⟨trees, cause⟩ := made
  obtain rfl : trees = [] := none
  cases cause with
  | some cause => rfl
  | none => exact saved

end Writer

end ClassDiagram
