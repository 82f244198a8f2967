import ClassDiagram.Proofs.Emission.Sources
import ClassDiagram.Proofs.Toggle.Solution
import ClassDiagram.Status

/-! What is shown after the units of a solution were switched. The override documents are no manifests
and leave the manifest as it is; the units that it lists by path are the same as before, and so are
those listed by pattern, unless a pattern matches a document that is new. -/

namespace ClassDiagram

open Files (ProperName Workspace)

namespace Descriptor

theorem hasSuffix_iff {suffix name : String} :
    hasSuffix suffix name = true ↔ suffix.toList <:+ name.toList.map Char.toLower := by
  have lower : name.toLower.toList = name.toList.map Char.toLower := String.toList_map
  rw [hasSuffix, ← String.endsWith_toSlice, String.Slice.endsWith_string_iff, String.copy_toSlice,
    lower]

end Descriptor

namespace Toggle

theorem hasSuffix_unitDocumentName (unit : Path) :
    Descriptor.hasSuffix Descriptor.aggregateSuffix (unitDocumentName unit) = false := by
  rw [← Bool.not_eq_true, Descriptor.hasSuffix_iff]
  intro manifest
  have document : ("." ++ Places.documentName).toList.map Char.toLower <:+
      (unitDocumentName unit).toList.map Char.toLower := by
    refine ⟨(Descriptor.unitName unit).toList.map Char.toLower, ?_⟩
    rw [unitDocumentName, String.append_assoc]
    simp only [String.toList_append, List.map_append]
  have shorter := List.suffix_of_suffix_length_le manifest document (by decide)
  exact absurd shorter (by decide)

end Toggle

namespace Places

theorem manifest?_cases {w : Workspace} {folder manifest : Path}
    (found : manifest? w folder = .ok (some manifest)) :
    ∃ names name, w.list folder = .ok names ∧ name ∈ names ∧ isManifest w folder name = true ∧
      manifest = folder.joinName name := by
  unfold manifest? at found
  split at found
  · cases found
  · next names listed =>
    obtain ⟨name, first, rfl⟩ := Option.map_eq_some_iff.mp (Except.ok.inj found)
    have mem := List.mem_of_mem_head? first
    rw [List.mem_mergeSort] at mem
    exact ⟨names, name, listed, (List.mem_filter.mp mem).1, (List.mem_filter.mp mem).2, rfl⟩

end Places

namespace CommandLine.Switch

open Files (Tree)
open Toggle (IsSet UnitState hasSuffix_unitDocumentName proper_unitDocumentName unitDocumentName)

variable {w w' : Workspace} {enabled : Bool} {paths : List Path} {folder : Path} {name : String}

theorem Switched.onTree (switched : Switched enabled w paths w') : w.onTree w'.tree = w' := by
  have cwd := switched.cwd
  cases w'
  exact congrArg (Workspace.mk _) cwd.symm

theorem location_ne_of_hasSuffix (proper : ProperName name)
    (manifest : Descriptor.hasSuffix Descriptor.aggregateSuffix name = true) (unit : Path) :
    w.location (folder.joinName name) ≠ w.location (Places.unitDocument unit) := by
  rw [Toggle.unitDocument_eq, Files.Workspace.location_of_proper _ proper,
    Files.Workspace.location_of_proper _ (proper_unitDocumentName unit)]
  intro meets
  obtain ⟨_, same⟩ := List.append_inj' meets rfl
  rw [List.singleton_inj.mp same, hasSuffix_unitDocumentName] at manifest
  cases manifest

theorem Switched.isManifest (switched : Switched enabled w paths w') (ext : w.tree.Extends w'.tree)
    (there : w.holds folder = true) (proper : ProperName name) :
    Places.isManifest w' folder name = Places.isManifest w folder name := by
  unfold Places.isManifest
  cases suffix : Descriptor.hasSuffix Descriptor.aggregateSuffix name with
  | false => simp
  | true =>
    rw [Bool.and_true, Bool.and_true, Bool.eq_iff_iff, ← switched.onTree]
    refine ⟨fun file => (Files.Workspace.isFile_onTree ext).mpr ⟨file, fun l mem absent => ?_⟩,
      fun file => ((Files.Workspace.isFile_onTree ext).mp file).1⟩
    rw [Files.Workspace.visited_joinName _ _ proper.noSlash] at mem
    rcases List.mem_append.mp mem with above | last
    · exact ((Files.Workspace.holds_onTree ext).mp there).2 l above absent
    · -- The name itself is none of those that were written.
      have place : l = w.location (folder.joinName name) := by
        rw [Files.Workspace.location_of_proper _ proper]
        simpa [Files.Workspace.visits, proper.notIdle, proper.notUp] using last
      refine (switched.find?_other fun unit _ => ?_).trans absent
      rw [place]
      exact location_ne_of_hasSuffix proper suffix unit

theorem Switched.manifest? (switched : Switched enabled w paths w') (ext : w.tree.Extends w'.tree)
    (proper : w'.tree.Proper) {manifest : Path}
    (found : Places.manifest? w folder = .ok (some manifest)) :
    Places.manifest? w' folder = .ok (some manifest) := by
  obtain ⟨names, name, listed, _⟩ := Places.manifest?_cases found
  obtain ⟨loc, ends, rfl⟩ := Files.Workspace.folder_of_list listed
  have there : w.holds folder = true := Files.Workspace.holds_iff.mpr ⟨_, _, ends⟩
  have listed' : w'.list folder = .ok (w'.tree.names loc) := by
    have ends' := Files.Workspace.resolve_of_keepsFolders ext.keepsFolders ends trivial
    rw [switched.onTree] at ends'
    rw [Workspace.list, ends']
  have same : (w'.tree.names loc).filter (Places.isManifest w' folder) =
      (w.tree.names loc).filter (Places.isManifest w folder) := by
    rw [ext.names_eq, List.filter_filter]
    refine List.filter_congr fun name mem => ?_
    have named := proper _ (Tree.mem_names.mp mem) name (by simp)
    rw [switched.isManifest ext there named]
    cases manifest : Places.isManifest w folder name with
    | false => rfl
    | true =>
      obtain ⟨bytes, read⟩ := Files.Workspace.read_of_isFile (Bool.and_eq_true_iff.mp manifest).1
      have held := Files.Workspace.find?_of_read read
      rw [Files.Workspace.location_of_proper _ named, ← Files.Workspace.loc_of_resolve ends] at held
      rw [show w.tree.find? (loc ++ [name]) = _ from held]
      rfl
  rw [Places.manifest?, listed] at found
  rw [Places.manifest?, listed']
  simp only [same]
  exact found

theorem Switched.readText (switched : Switched enabled w paths w') {p : Path}
    (apart : ∀ unit, w.location p ≠ w.location (Places.unitDocument unit)) {text : String}
    (read : w.readText p = .ok text) : w'.readText p = w.readText p := by
  unfold Workspace.readText at read ⊢
  cases bytes : w.read p with
  | error cause =>
    rw [bytes] at read
    cases read
  | ok contents => rw [switched.read_other bytes fun unit _ => apart unit]

theorem Switched.lists (switched : Switched enabled w paths w') (sound : w.Sound) {manifest : Path}
    {listed : List Path} (lists : Lists w manifest listed) :
    Places.manifest? w' w'.cwdPath = .ok (some manifest) ∧
      w'.readText manifest = w.readText manifest := by
  obtain ⟨ext, proper⟩ := switched.enlarges sound.cwd
  have cwd : w'.cwdPath = w.cwdPath := by rw [Workspace.cwdPath, switched.cwd, Workspace.cwdPath]
  obtain ⟨found, units⟩ := lists
  refine ⟨cwd ▸ switched.manifest? ext (proper sound.tree) found, ?_⟩
  obtain ⟨names, name, listed, mem, manifests, rfl⟩ := Places.manifest?_cases found
  obtain ⟨loc, _, rfl⟩ := Files.Workspace.folder_of_list listed
  have named := sound.tree _ (Tree.mem_names.mp mem) name (by simp)
  have suffix := (Bool.and_eq_true_iff.mp manifests).2
  unfold Manifest.units at units
  split at units
  · cases units
  · next text read => exact switched.readText (location_ne_of_hasSuffix named suffix) read

theorem Switched.units (switched : Switched enabled w paths w') (sound : w.Sound) {manifest : Path}
    {before after : List Path} (lists : Lists w manifest before)
    (listed : Manifest.units w' manifest = .ok after) :
    after.filter w.holds = before.filter w.holds ∧
      ((∀ p ∈ Manifest.patternMatches w' manifest, w.holds p = true) → after = before) := by
  obtain ⟨ext, proper⟩ := switched.enlarges sound.cwd
  have proper := proper sound.tree
  have same := (switched.lists sound lists).2
  rw [← switched.onTree] at same listed ⊢
  have held : ∀ paths : List Path, paths.filter w.holds =
      (paths.filter (w.Old w'.tree)).filter (w.onTree w'.tree).holds := by
    intro paths
    rw [List.filter_filter]
    refine List.filter_congr fun p _ => ?_
    rw [Bool.eq_iff_iff, Bool.and_eq_true, decide_eq_true_iff]
    exact Files.Workspace.holds_onTree ext
  constructor
  · rw [held, held, Manifest.filter_units ext proper same lists.2 listed]
  · intro old
    have old : ∀ p ∈ Manifest.patternMatches (w.onTree w'.tree) manifest, w.Old w'.tree p :=
      fun p mem => ((Files.Workspace.holds_onTree ext).mp (old p mem)).2
    rw [Manifest.units_of_old ext proper same old, lists.2] at listed
    exact (Except.ok.inj listed).symm

end CommandLine.Switch

namespace Status

open Toggle (UnitState unitState)

theorem of_mapM {w : Workspace} {units : List Path} {shown : List UnitStatus}
    (done : (units.mapM fun unit => (unitState w unit).map fun state => UnitStatus.mk unit state) =
      .ok shown) :
    shown.map UnitStatus.path = units ∧ ∀ u ∈ shown, unitState w u.path = .ok u.state := by
  induction units generalizing shown with
  | nil => cases done; simp
  | cons unit units ih =>
    rw [List.mapM_cons] at done
    obtain ⟨first, one, done⟩ := Failure.bind_ok done
    obtain ⟨rest, later, done⟩ := Failure.bind_ok done
    cases done
    obtain ⟨paths, states⟩ := ih later
    cases told : unitState w unit with
    | error failure =>
      rw [told] at one
      cases one
    | ok state =>
      rw [told] at one
      cases one
      exact ⟨congrArg _ paths, List.forall_mem_cons.mpr ⟨told, states⟩⟩

theorem gather_listed {w : Workspace} {start manifest : Path} {s : Status}
    (found : Places.manifest? w start = .ok (some manifest)) (done : gather w start = .ok s) :
    s.manifest = some manifest ∧ Manifest.units w manifest = .ok (s.units.map UnitStatus.path) ∧
      ∀ u ∈ s.units, unitState w u.path = .ok u.state := by
  unfold gather at done
  obtain ⟨document, _, done⟩ := Failure.bind_ok done
  obtain ⟨manifest', same, done⟩ := Failure.bind_ok done
  obtain ⟨shown, states, done⟩ := Failure.bind_ok done
  cases done
  cases found.symm.trans same
  obtain ⟨paths, list, states⟩ := Failure.bind_ok states
  obtain ⟨rfl, each⟩ := of_mapM states
  exact ⟨rfl, list, each⟩

theorem eq_map_of_state {state : UnitState} {shown : List UnitStatus}
    (all : ∀ u ∈ shown, u.state = state) :
    shown = (shown.map UnitStatus.path).map fun unit => ⟨unit, state⟩ := by
  rw [List.map_map]
  refine (List.map_id shown).symm.trans (List.map_congr_left fun u mem => ?_)
  rw [Function.comp_apply, ← all u mem]
  rfl

end Status

namespace CommandLine.Switch

open Toggle (UnitState)

variable {w : Workspace} {enabled : Bool}

theorem runSolution_ok {theme : Theme} {i : Invocation}
    (asked : i.command = .toggle enabled true none) (done : (execute theme w i).2.code = .ok) :
    ∃ manifest paths, Lists w manifest paths ∧ Switched enabled w paths (execute theme w i).1 := by
  have course := runSolution_course theme i.mode enabled ⟨w, "", ""⟩
  rw [execute, perform_solution asked] at done ⊢
  generalize (runSolution theme i.mode enabled).run ⟨w, "", ""⟩ = result at course done ⊢
  cases course with
  | switched lists switched => exact ⟨_, _, lists, switched⟩
  | noManifest | unlisted | stopped => cases done

def shownAs (enabled : Bool) (unit : Path) : UnitStatus :=
  ⟨unit, if enabled then .enabled else .disabled⟩

/-- A command that is done has switched all units that the manifest lists. Those of them that were
there before are shown afterwards, in the same order and as they were set, and nothing else is that
was there before; and where no pattern of the manifest matches anything new, what is shown is what
was switched. -/
theorem runSolution_shown {theme : Theme} {i : Invocation} (sound : w.Sound)
    (asked : i.command = .toggle enabled true none) (done : (execute theme w i).2.code = .ok) :
    ∃ manifest paths w', Lists w manifest paths ∧ Switched enabled w paths w' ∧
      (execute theme w i).1 = w' ∧
      ∀ s, Status.gather w' w'.cwdPath = .ok s →
        s.manifest = some manifest ∧
        (s.units.filter fun u => w.holds u.path) = (paths.filter w.holds).map (shownAs enabled) ∧
        ((∀ p ∈ Manifest.patternMatches w' manifest, w.holds p = true) →
          s.units = paths.map (shownAs enabled)) := by
  obtain ⟨manifest, paths, lists, switched⟩ := runSolution_ok asked done
  refine ⟨manifest, paths, _, lists, switched, rfl, fun s gathered => ?_⟩
  obtain ⟨shown, listed, states⟩ := Status.gather_listed (switched.lists sound lists).1 gathered
  obtain ⟨kept, all⟩ := switched.units sound lists listed
  have set : ∀ u ∈ s.units, u.path ∈ paths → u.state = if enabled then .enabled else .disabled :=
    fun u mem unit =>
      Toggle.unitState_of_isSet (switched.there unit) (switched.isSet unit) (states u mem)
  refine ⟨shown, ?_, fun old => ?_⟩
  · have paths_eq : (s.units.filter fun u => w.holds u.path).map UnitStatus.path =
        paths.filter w.holds := by rw [← kept, List.filter_map]; rfl
    rw [← paths_eq]
    refine Status.eq_map_of_state fun u mem => set u (List.mem_filter.mp mem).1 ?_
    have inside := List.mem_map_of_mem (f := UnitStatus.path) mem
    rw [paths_eq] at inside
    exact (List.mem_filter.mp inside).1
  · have paths_eq := all old
    rw [← paths_eq]
    exact Status.eq_map_of_state fun u mem => set u mem (paths_eq ▸ List.mem_map_of_mem mem)

/-- A unit that lies in a folder of its own, and a pattern that its document will match. -/
def crossed : Workspace :=
  ⟨⟨[(["S.solution.toml"], .file (Workspace.utf8
      "units = [\"d/e/A.symbols.json\", \"d/*/A.typediagram.toml\"]")),
    (["d"], .folder), (["d", "e"], .folder), (["d", "e", "A.symbols.json"], .file [])]⟩, []⟩

theorem crossed_sound : crossed.Sound := by decide +kernel

def crossedUnit : Path := ⟨"/d/e/A.symbols.json"⟩

def crossedAfter : Workspace := (execute .plain crossed enableSolution).1

theorem crossed_switched :
    (execute .plain crossed enableSolution).2.code = .ok ∧
      Lists crossed ⟨"/S.solution.toml"⟩ [crossedUnit] ∧
      Switched true crossed [crossedUnit] crossedAfter := by
  have done : (execute .plain crossed enableSolution).2.code = .ok := by decide +kernel
  have found : (Places.manifest? crossed crossed.cwdPath).toOption =
      some (some ⟨"/S.solution.toml"⟩) := by decide +kernel
  have listed : (Manifest.units crossed ⟨"/S.solution.toml"⟩).toOption = some [crossedUnit] := by
    decide +kernel
  obtain ⟨manifest, paths, lists, switched⟩ := runSolution_ok (i := enableSolution) rfl done
  rw [lists.1] at found
  obtain rfl : manifest = ⟨"/S.solution.toml"⟩ := by simpa [Except.toOption] using found
  rw [lists.2] at listed
  obtain rfl : paths = [crossedUnit] := by simpa [Except.toOption] using listed
  exact ⟨done, lists, switched⟩

theorem crossed_state : Toggle.unitState crossedAfter crossedUnit = .ok .enabled := by
  have read : ∀ d ∈ (BuildDocument.load crossed (Places.unitDocument crossedUnit)).toOption,
      ((d.setEnabled true).1.orderedText?.bind Toml.Document.parse).isSome := by decide +kernel
  obtain ⟨_, _, switched⟩ := crossed_switched
  obtain ⟨outcome, set⟩ : ∃ outcome, Toggle.setUnit crossed crossedUnit true =
      (crossedAfter, .ok outcome) := by
    cases switched with
    | cons set later =>
      cases later
      exact ⟨_, set⟩
  have step := Toggle.setUnit_step crossed true crossedUnit
  rw [set] at step
  obtain ⟨d, opened, text⟩ := step.readText rfl
  rw [opened] at read
  obtain ⟨document, parsed⟩ :=
    Option.isSome_iff_exists.mp (BuildDocument.isSome_parse_text (read d rfl))
  rw [Toggle.unitState_reread (step.there rfl) (step.isSet rfl) text, parsed]
  rfl

theorem crossed_gathered : ∃ s, Status.gather crossedAfter crossedAfter.cwdPath = .ok s ∧
    s.units = [⟨crossedUnit, .enabled⟩, ⟨⟨"/d/e/A.typediagram.toml"⟩, .inherits⟩] := by
  have nearest : Places.nearestDocument? crossedAfter crossedAfter.cwdPath = none := by
    decide +kernel
  have listed : (Manifest.units crossedAfter ⟨"/S.solution.toml"⟩).toOption =
      some [crossedUnit, ⟨"/d/e/A.typediagram.toml"⟩] := by decide +kernel
  have other : (Toggle.unitState crossedAfter ⟨"/d/e/A.typediagram.toml"⟩).toOption =
      some .inherits := by decide +kernel
  have state := crossed_state
  obtain ⟨_, lists, switched⟩ := crossed_switched
  have found := (switched.lists crossed_sound lists).1
  generalize crossedAfter = w' at *
  cases units : Manifest.units w' ⟨"/S.solution.toml"⟩ with
  | error failure => simp [units, Except.toOption] at listed
  | ok paths =>
    obtain rfl : paths = [crossedUnit, ⟨"/d/e/A.typediagram.toml"⟩] := by
      simpa [units, Except.toOption] using listed
    cases told : Toggle.unitState w' ⟨"/d/e/A.typediagram.toml"⟩ with
    | error failure => simp [told, Except.toOption] at other
    | ok state' =>
      obtain rfl : state' = .inherits := by simpa [told, Except.toOption] using other
      have rows : Status.unitsOf w' (some ⟨"/S.solution.toml"⟩) =
          .ok [⟨crossedUnit, .enabled⟩, ⟨⟨"/d/e/A.typediagram.toml"⟩, .inherits⟩] := by
        simp only [Status.unitsOf, units, bind, Except.bind, List.mapM_cons, List.mapM_nil, state,
          told]
        rfl
      have document : Status.document? w' w'.cwdPath = .ok none := by
        rw [Status.document?, nearest]
      refine ⟨⟨none, none, none, some ⟨"/S.solution.toml"⟩, _⟩, ?_, rfl⟩
      simp only [Status.gather, document, found, bind, Except.bind, rows]
      rfl

theorem runSolution_shown_crossed :
    crossed.Sound ∧ (execute .plain crossed enableSolution).2.code = .ok ∧
      ∃ s, Status.gather crossedAfter crossedAfter.cwdPath = .ok s ∧
        (s.units.filter fun u => crossed.holds u.path) = [⟨crossedUnit, .enabled⟩] := by
  obtain ⟨done, listed, _⟩ := crossed_switched
  obtain ⟨manifest, paths, w', lists, switched, result, shown⟩ :=
    runSolution_shown crossed_sound (i := enableSolution) rfl done
  obtain ⟨s, gathered, _⟩ := crossed_gathered
  rw [crossedAfter, result] at gathered ⊢
  obtain ⟨_, kept, _⟩ := shown s gathered
  cases listed.1.symm.trans lists.1
  cases listed.2.symm.trans lists.2
  have there : [crossedUnit].filter crossed.holds = [crossedUnit] := by decide +kernel
  rw [there] at kept
  exact ⟨crossed_sound, done, s, gathered, kept⟩

/-- One unit is switched, and the document that was written for it is shown as a second one. -/
theorem crossed_shows_more :
    (execute .plain crossed enableSolution).2.code = .ok ∧
      Switched true crossed [crossedUnit] (execute .plain crossed enableSolution).1 ∧
      ∃ s, Status.gather (execute .plain crossed enableSolution).1
          (execute .plain crossed enableSolution).1.cwdPath = .ok s ∧
        s.units.map UnitStatus.path = [crossedUnit, ⟨"/d/e/A.typediagram.toml"⟩] := by
  obtain ⟨s, gathered, shown⟩ := crossed_gathered
  exact ⟨crossed_switched.1, crossed_switched.2.2, s, gathered, by rw [shown]; rfl⟩

end CommandLine.Switch

end ClassDiagram
