import ClassDiagram.Proofs.BuildDocument.Again
import ClassDiagram.Proofs.Toggle.Repository
import ClassDiagram.Proofs.Toggle.Shown

/-! What setting one unit leaves, for that unit and for all else. The unit is shown as it was set. The
same setting, made again, prints the document that it reads. Other units and the documents of
repositories are left alone, so settings of different units can be exchanged. -/

namespace ClassDiagram

open Files (Location ProperName Tree Workspace)
open ClassDiagram.Files.Tree (Apart)
open Toml (Document)

variable {w : Workspace} {t : Tree} {place : Location} {name : String} {p start : Path}

/-! ### What is read where nothing was written -/

namespace Places

theorem repositoryDocument_of_apart (apart : Apart place w.tree t)
    (other : ∀ folder : Path, w.location (folder.joinName gitName) ≠ place) (start : Path) :
    repositoryDocument (w.onTree t) start = repositoryDocument w start := by
  have same : (fun folder : Path => (w.onTree t).holds (folder.joinName ".git")) =
      fun folder : Path => w.holds (folder.joinName ".git") :=
    funext fun folder => Files.Workspace.holds_of_apart apart (other folder)
  unfold repositoryDocument repositoryRoot?
  rw [same]

theorem nearestDocument?_of_apart (apart : Apart place w.tree t)
    (other : ∀ folder : Path, w.location (folder.joinName documentName) ≠ place) (start : Path) :
    nearestDocument? (w.onTree t) start = nearestDocument? w start := by
  have same : (w.onTree t).isFile ∘ (fun folder : Path => folder.joinName documentName) =
      w.isFile ∘ fun folder : Path => folder.joinName documentName :=
    funext fun folder => Files.Workspace.isFile_of_apart apart (other folder)
  unfold nearestDocument?
  rw [List.find?_map, List.find?_map, same]

theorem reached_root (reached : w.Reached start) : w.Reached (root w start) := by
  unfold root
  cases found : repositoryRoot? w start with
  | none => exact reached
  | some folder =>
    have git : w.holds (folder.joinName gitName) = true :=
      (List.find?_eq_some_iff_append.mp found).1
    exact Files.Workspace.reached_of_holds proper_gitName git

end Places

namespace Toggle

open Places

variable {enabled enabled' : Bool} {unit other : Path}
  {result : Workspace × Except Failure Writer.Outcome}

theorem location_unitDocument (w : Workspace) (unit : Path) :
    w.location (unitDocument unit) = w.location unit.folder ++ [unitDocumentName unit] :=
  Files.Workspace.location_of_proper _ (proper_unitDocumentName unit)

theorem location_ne_unitDocument (proper : ProperName name) (short : name.length < 17)
    (folder unit : Path) : w.location (folder.joinName name) ≠ w.location (unitDocument unit) := by
  rw [Files.Workspace.location_of_proper _ proper, location_unitDocument]
  intro meets
  exact unitDocumentName_ne unit short (List.singleton_inj.mp (List.append_inj' meets rfl).2).symm

theorem undrafted_unitDocument (w : Workspace) (unit : Path) :
    Writer.Undrafted (w.location (unitDocument unit)) := by
  intro folder k meets
  rw [location_unitDocument] at meets
  have same := List.singleton_inj.mp (List.append_inj' meets rfl).2
  have last : (unitDocumentName unit).toList.getLast? = some 'l' := by
    have ending : documentName.toList ≠ [] ∧ documentName.toList.getLast? = some 'l' := by decide
    rw [unitDocumentName, String.toList_append, List.getLast?_append_of_ne_nil _ ending.1, ending.2]
  rw [same, Writer.toList_draftName, List.replicate_succ', ← List.append_assoc,
    List.getLast?_concat] at last
  cases last

theorem unitState_of_apart (apart : Apart place w.tree t)
    (file : (w.onTree t).isFile other = w.isFile other)
    (document : w.location (unitDocument other) ≠ place) :
    unitState (w.onTree t) other = unitState w other := by
  cases there : w.isFile other with
  | false => rw [unitState_missing (file.trans there), unitState_missing there]
  | true =>
    unfold unitState
    rw [if_pos (file.trans there), if_pos there, load_unitDocument_of_apart apart (Files.Workspace.reached_of_isFile there)
        document]

theorem setUnitUnder_of_apart (apart : Apart place w.tree t) (undrafted : Writer.Undrafted place)
    (file : (w.onTree t).isFile other = w.isFile other)
    (document : w.location (unitDocument other) ≠ place) (faults : Writer.Faults) (enabled : Bool) :
    (setUnitUnder faults (w.onTree t) other enabled).2 = (setUnitUnder faults w other enabled).2 := by
  unfold setUnitUnder
  cases there : w.isFile other with
  | false =>
    rw [if_neg (by simp [file, there]), if_neg (by simp)]
  | true =>
    rw [if_pos (file.trans there), if_pos rfl, load_unitDocument_of_apart apart (Files.Workspace.reached_of_isFile there)
        document]
    cases opened : BuildDocument.load w (unitDocument other) with
    | error failure => rfl
    | ok d =>
      have path : (d.setEnabled enabled).1.path = other.folder.joinName (unitDocumentName other) :=
        show d.path = _ from BuildDocument.path_of_load opened
      rw [unitDocument_eq] at document
      have written := Writer.run_of_apart apart undrafted
        (Files.Workspace.reached_of_isFile there) (proper_unitDocumentName other) document faults
        (d.setEnabled enabled).1.text
      rw [← path] at written
      cases changed : d.setEnabled enabled with
      | mk d' result =>
        rw [changed] at written
        cases result with
        | error failure => simp only [changed]
        | ok _ =>
          simp only [changed]
          exact written

theorem find?_setUnitUnder_of_apart (apart : Apart place w.tree t)
    (undrafted : Writer.Undrafted place) (file : (w.onTree t).isFile other = w.isFile other)
    (document : w.location (unitDocument other) ≠ place) (faults : Writer.Faults) (enabled : Bool) :
    (setUnitUnder faults (w.onTree t) other enabled).1.tree.find? (w.location (unitDocument other)) =
      (setUnitUnder faults w other enabled).1.tree.find? (w.location (unitDocument other)) := by
  have same := setUnitUnder_of_apart apart undrafted file document faults enabled
  have step := setUnitUnder_step faults w enabled other
  have step' := setUnitUnder_step faults (w.onTree t) enabled other
  generalize setUnitUnder faults w other enabled = r at *
  generalize setUnitUnder faults (w.onTree t) other enabled = r' at *
  cases step with
  | refused =>
    cases step' with
    | refused => exact apart.others _ document
    | set => cases same
  | @set d _ _ _ there opened _ ending =>
    cases step' with
    | refused => cases same
    | @set d' _ _ _ _ opened' _ ending' =>
      have loads := load_unitDocument_of_apart apart (Files.Workspace.reached_of_isFile there)
        document
      rw [opened, opened'] at loads
      cases loads
      exact (Files.Workspace.find?_of_read ending'.read).trans
        (Files.Workspace.find?_of_read ending.read).symm

/-! ### Other units and repositories -/

/-- A unit that setting another one does not concern: they have different override documents, and
the override document of the other is not this unit, unless as a file that was there before. -/
structure Independent (w : Workspace) (unit other : Path) : Prop where
  document : w.location (unitDocument other) ≠ w.location (unitDocument unit)
  unit : w.isFile other = true ∨ w.location other ≠ w.location (unitDocument unit)

/-- The documents that govern a build from a folder on are the same and say the same. -/
structure Governed (w w' : Workspace) (start : Path) : Prop where
  repository : repositoryDocument w' start = repositoryDocument w start
  nearest : nearestDocument? w' start = nearestDocument? w start
  bytes : (w'.read (repositoryDocument w start)).toOption =
    (w.read (repositoryDocument w start)).toOption
  opened : w.Reached start →
    BuildDocument.load w' (repositoryDocument w start) =
      BuildDocument.load w (repositoryDocument w start)
  openedNearest : ∀ path, nearestDocument? w start = some path →
    BuildDocument.load w' path = BuildDocument.load w path

namespace Step

theorem isFile_other (step : Step w enabled unit result) (independent : Independent w unit other) :
    (w.onTree result.1.tree).isFile other = w.isFile other := by
  rcases independent.unit with file | elsewhere
  · rw [step.onTree, step.isFile file, file]
  · exact Files.Workspace.isFile_of_apart step.apart elsewhere

theorem unitState_other (step : Step w enabled unit result)
    (independent : Independent w unit other) : unitState result.1 other = unitState w other := by
  rw [← step.onTree]
  exact unitState_of_apart step.apart (step.isFile_other independent) independent.document

theorem governed (step : Step w enabled unit result) (start : Path) : Governed w result.1 start := by
  have git : ∀ folder : Path, w.location (folder.joinName gitName) ≠ w.location (unitDocument unit) :=
    fun folder => location_ne_unitDocument proper_gitName (by decide) folder unit
  have document : ∀ folder : Path,
      w.location (folder.joinName documentName) ≠ w.location (unitDocument unit) :=
    fun folder => location_ne_unitDocument proper_documentName (by decide) folder unit
  have opened : ∀ {folder : Path}, w.Reached folder →
      BuildDocument.load result.1 (folder.joinName documentName) =
        BuildDocument.load w (folder.joinName documentName) := by
    intro folder reached
    rw [← step.onTree]
    exact BuildDocument.load_of_apart step.apart reached proper_documentName (document folder)
  constructor
  · rw [← step.onTree]
    exact repositoryDocument_of_apart step.apart git start
  · rw [← step.onTree]
    exact nearestDocument?_of_apart step.apart document start
  · rw [← step.onTree]
    exact Files.Workspace.read_of_apart step.apart (document _)
  · exact fun reached => opened (reached_root reached)
  · intro path nearest
    have file := isFile_of_nearestDocument? nearest
    obtain ⟨_, folder, _, _, rfl, _⟩ := nearestDocument?_cases nearest
    obtain ⟨_, reached, _⟩ :=
      (Files.Workspace.isFile_joinName_iff proper_documentName named_documentName).mp file
    exact opened reached

end Step

theorem setUnitUnder_comm (there : Independent w unit other) (back : Independent w other unit)
    (faults faults' : Writer.Faults) (enabled enabled' : Bool) :
    let first := setUnitUnder faults w unit enabled
    let second := setUnitUnder faults' w other enabled'
    let later := setUnitUnder faults' first.1 other enabled'
    let later' := setUnitUnder faults second.1 unit enabled
    later.2 = second.2 ∧ later'.2 = first.2 ∧ later.1.cwd = later'.1.cwd ∧
      ∀ loc, later.1.tree.find? loc = later'.1.tree.find? loc := by
  intro first second later later'
  have step : Step w enabled unit first := setUnitUnder_step faults w enabled unit
  have step' : Step w enabled' other second := setUnitUnder_step faults' w enabled' other
  have next : Step first.1 enabled' other later := setUnitUnder_step faults' first.1 enabled' other
  have next' : Step second.1 enabled unit later' := setUnitUnder_step faults second.1 enabled unit
  have same : later.2 = second.2 := by
    have same := setUnitUnder_of_apart step.apart (undrafted_unitDocument w unit)
      (step.isFile_other there) there.document faults' enabled'
    rwa [step.onTree] at same
  have same' : later'.2 = first.2 := by
    have same := setUnitUnder_of_apart step'.apart (undrafted_unitDocument w other)
      (step'.isFile_other back) back.document faults enabled
    rwa [step'.onTree] at same
  have places : ∀ p, first.1.location p = w.location p := step.location
  have places' : ∀ p, second.1.location p = w.location p := step'.location
  refine ⟨same, same', ?_, fun loc => ?_⟩
  · rw [next.cwd, step.cwd, next'.cwd, step'.cwd]
  · -- Each document is written by its own setting, and the other one leaves it as it is.
    by_cases own : loc = w.location (unitDocument unit)
    · have kept : later.1.tree.find? loc = first.1.tree.find? loc := by
        refine next.find?_other ?_
        rw [places, own]
        exact there.document.symm
      have written := find?_setUnitUnder_of_apart step'.apart (undrafted_unitDocument w other)
        (step'.isFile_other back) back.document faults enabled
      rw [step'.onTree, ← own] at written
      exact kept.trans written.symm
    · have kept : later'.1.tree.find? loc = second.1.tree.find? loc := by
        refine next'.find?_other ?_
        rwa [places']
      rw [kept]
      by_cases its : loc = w.location (unitDocument other)
      · have written := find?_setUnitUnder_of_apart step.apart (undrafted_unitDocument w unit)
          (step.isFile_other there) there.document faults' enabled'
        rwa [step.onTree, ← its] at written
      · rw [next.find?_other (by rwa [places]), step.find?_other own, step'.find?_other its]

/-! ### The unit itself -/

/-- What a setting that has gone well leaves, where `text` is the text of its document. -/
structure Overridden (w w' : Workspace) (unit : Path) (enabled : Bool) (text : String) : Prop where
  written : w'.readText (unitDocument unit) = .ok text
  /-- The unit is shown as it was set, as far as the text can be read. -/
  state : unitState w' unit = match Document.parse text with
    | some _ => .ok (.ofSwitch (some enabled))
    | none => .error (.malformedConfig (unitDocument unit))
  /-- The same setting once more writes what was read, as it is printed. -/
  again : setUnit w' unit enabled = match Document.parse text with
    | some document => Writer.write w' (unitDocument unit) document.text
    | none => (w', .error (.malformedConfig (unitDocument unit)))
  unchanged : setUnit w' unit enabled = (w', .ok .unchanged) ↔
    ∃ document, Document.parse text = some document ∧ document.text = text
  units : ∀ other, Independent w unit other → unitState w' other = unitState w other
  repositories : ∀ start, Governed w w' start
  files : ∀ loc ≠ w.location (unitDocument unit), w'.tree.find? loc = w.tree.find? loc

theorem setUnit_of_load {d : BuildDocument} (file : w.isFile unit = true)
    (opened : BuildDocument.load w (unitDocument unit) = .ok d)
    (put : (d.setEnabled enabled).2 = .ok ()) :
    setUnit w unit enabled = (d.setEnabled enabled).1.save w := by
  unfold setUnit
  rw [if_pos file, opened]
  cases changed : d.setEnabled enabled with
  | mk d' result =>
    rw [changed] at put
    cases put
    simp only [changed]

theorem setUnitUnder_ok {w' : Workspace} {outcome : Writer.Outcome} {faults : Writer.Faults}
    (done : setUnitUnder faults w unit enabled = (w', .ok outcome)) :
    ∃ d, BuildDocument.load w (unitDocument unit) = .ok d ∧ (d.setEnabled enabled).2 = .ok () ∧
      Writer.writeUnder faults w (unitDocument unit) (d.setEnabled enabled).1.text =
        (w', .ok outcome) := by
  unfold setUnitUnder at done
  split at done
  · split at done
    · cases done
    next d opened =>
      have path : (d.setEnabled enabled).1.path = unitDocument unit :=
        show d.path = _ from BuildDocument.path_of_load opened
      split at done
      · cases done
      next d' _ changed =>
        rw [changed] at path
        refine ⟨d, opened, by rw [changed], ?_⟩
        rw [changed, ← path]
        exact done
  · cases done

section

variable {text : String}

theorem setUnit_reread {d : BuildDocument} (there : w.isFile unit = true) (kept : d.document.Kept)
    (put : (d.setEnabled enabled).2 = .ok ())
    (read : w.readText (unitDocument unit) = .ok (d.setEnabled enabled).1.text) :
    setUnit w unit enabled = match Document.parse (d.setEnabled enabled).1.text with
      | some document => Writer.write w (unitDocument unit) document.text
      | none => (w, .error (.malformedConfig (unitDocument unit))) := by
  have loads := BuildDocument.load_of_readText read
  cases parsed : Document.parse (d.setEnabled enabled).1.text with
  | none =>
    rw [parsed] at loads
    unfold setUnit
    rw [if_pos there, loads]
  | some document =>
    rw [parsed] at loads
    let d' : BuildDocument := ⟨unitDocument unit, document⟩
    obtain ⟨put', same⟩ := @BuildDocument.run_again d d' (.setEnabled enabled) kept (by simp) put
      parsed
    have same : (d'.setEnabled enabled).1.text = document.text := same
    have path : (d'.setEnabled enabled).1.path = unitDocument unit := rfl
    rw [setUnit_of_load there loads put', BuildDocument.save, path, same]

theorem eq_of_unchanged {target : Path} {content : String} {outcome : Writer.Outcome}
    (read : w.readText target = .ok text) (done : Writer.write w target content = (w, .ok outcome)) :
    content = text := by
  obtain ⟨same, result⟩ := Prod.mk.inj done
  have second := Files.Workspace.readText_of_utf8 (Writer.read_of_run result)
  rw [same, read] at second
  exact (Except.ok.inj second).symm

end

theorem overridden {w' : Workspace} {outcome : Writer.Outcome} {faults : Writer.Faults}
    (done : setUnitUnder faults w unit enabled = (w', .ok outcome)) :
    ∃ d, BuildDocument.load w (unitDocument unit) = .ok d ∧
      Overridden w w' unit enabled (d.setEnabled enabled).1.text := by
  obtain ⟨d, opened, put, written⟩ := setUnitUnder_ok done
  have step := setUnitUnder_step faults w enabled unit
  rw [done] at step
  have there : w'.isFile unit = true := step.there rfl
  have read : w'.readText (unitDocument unit) = .ok (d.setEnabled enabled).1.text := by
    obtain ⟨rfl, result⟩ := Prod.mk.inj written
    exact Files.Workspace.readText_of_utf8 (Writer.read_of_run result)
  have again := setUnit_reread there (BuildDocument.kept_load opened) put read
  refine ⟨d, opened, read, unitState_reread there (step.isSet rfl) read, again, ?_,
    fun other => step.unitState_other, step.governed, fun loc elsewhere => step.find?_other elsewhere⟩
  rw [again]
  constructor
  · intro unchanged
    cases parsed : Document.parse (d.setEnabled enabled).1.text with
    | none =>
      rw [parsed] at unchanged
      cases unchanged
    | some document =>
      rw [parsed] at unchanged
      exact ⟨document, rfl, eq_of_unchanged read unchanged⟩
  · rintro ⟨document, parsed, same⟩
    rw [parsed]
    simp only [same]
    exact Writer.write_again written

/-- Where no header of the document that was there has blanks and all spell their names in one way, and
no table comes from dotted keys, the same setting changes nothing in the files that it left, if the
document can be opened there. -/
theorem setUnit_again_of_neat {w' : Workspace} {d : BuildDocument} {outcome : Writer.Outcome}
    {state : UnitState} {spelled : String → String}
    (opened : BuildDocument.load w (unitDocument unit) = .ok d)
    (neat : d.document.root.Neat spelled)
    (key : (Toml.Key.new ConfigKey.build).Neat spelled)
    (done : setUnit w unit enabled = (w', .ok outcome)) (shown : unitState w' unit = .ok state) :
    setUnit w' unit enabled = (w', .ok .unchanged) := by
  have step := done ▸ setUnit_step w enabled unit
  have there : w'.isFile unit = true := step.there rfl
  obtain ⟨d₁, opened', _⟩ := load_of_unitState there shown
  obtain ⟨d', loaded, put, written⟩ := setUnitUnder_ok ((setUnitUnder_none ..).trans done)
  cases opened.symm.trans loaded
  have path : (d.setEnabled enabled).1.path = unitDocument unit :=
    show d.path = _ from BuildDocument.path_of_load opened
  have saved : (d.setEnabled enabled).1.save w = (w', .ok outcome) := by
    rw [BuildDocument.save, path]
    exact written
  obtain ⟨put', again⟩ := BuildDocument.save_again_of_neat (e := .setEnabled enabled) opened neat
    (by simpa [BuildDocument.Edit.path] using key) (by simp) put saved opened'
  exact (setUnit_of_load there opened' put').trans again

/-- Setting a unit, whatever goes wrong on the way: a failure leaves all files as they are, and else
the unit is shown as it was set, with nothing else changed. Settings of independent units can be
exchanged. -/
theorem setUnit_overrides (w : Workspace) (unit : Path) (enabled : Bool) :
    setUnitUnder .none w unit enabled = setUnit w unit enabled ∧
      (∀ faults failure w', setUnitUnder faults w unit enabled = (w', .error failure) → w' = w) ∧
      (∀ faults outcome w', setUnitUnder faults w unit enabled = (w', .ok outcome) →
        ∃ d, BuildDocument.load w (unitDocument unit) = .ok d ∧
          Overridden w w' unit enabled (d.setEnabled enabled).1.text) ∧
      ∀ other enabled' faults faults', Independent w unit other → Independent w other unit →
        let first := setUnitUnder faults w unit enabled
        let second := setUnitUnder faults' w other enabled'
        let later := setUnitUnder faults' first.1 other enabled'
        let later' := setUnitUnder faults second.1 unit enabled
        later.2 = second.2 ∧ later'.2 = first.2 ∧ later.1.cwd = later'.1.cwd ∧
          ∀ loc, later.1.tree.find? loc = later'.1.tree.find? loc := by
  refine ⟨setUnitUnder_none w unit enabled, fun faults failure w' failed => ?_,
    fun faults outcome w' => overridden, fun other enabled' faults faults' there back =>
      setUnitUnder_comm there back faults faults' enabled enabled'⟩
  have step := setUnitUnder_step faults w enabled unit
  rw [failed] at step
  exact step.failed rfl

/-- A setting that is written out: its document is opened and edited, and the text that it gets is
known since its tables stand in the order of their headers. -/
theorem setUnit_of_ordered {text : String} (file : w.isFile unit = true)
    (edited : (BuildDocument.load w (unitDocument unit)).toOption.map (fun d =>
      ((d.setEnabled enabled).2.toOption, (d.setEnabled enabled).1.orderedText?)) =
        some (some (), some text)) :
    setUnit w unit enabled = Writer.write w (unitDocument unit) text := by
  obtain ⟨d, opened, same⟩ := Option.map_eq_some_iff.mp edited
  obtain ⟨put, ordered⟩ := Prod.mk.inj same
  have opened := BuildDocument.ok_of_toOption opened
  have path : (d.setEnabled enabled).1.path = unitDocument unit :=
    show d.path = _ from BuildDocument.path_of_load opened
  rw [setUnit_of_load file opened (BuildDocument.ok_of_toOption put), BuildDocument.save, path,
    BuildDocument.text_of_orderedText? ordered]

def pair : Workspace :=
  ⟨⟨[([".git"], .folder), (["A.symbols.json"], .file []), (["B.symbols.json"], .file []),
    (["typediagram.toml"], .file (Workspace.utf8 "[build]\ntypediagram-enabled = false\n"))]⟩, []⟩

def locked : Writer.Faults := { Writer.Faults.none with create := some .busy }

theorem setUnit_overrides_pair :
    let unit : Path := ⟨"A.symbols.json"⟩
    let other : Path := ⟨"B.symbols.json"⟩
    Independent pair unit other ∧ Independent pair other unit ∧
      (∃ failure, setUnitUnder locked pair unit true = (pair, .error failure)) ∧
      ∃ w', setUnit pair unit true = (w', .ok .written) ∧ unitState w' unit = .ok .enabled ∧
        setUnit w' unit true = (w', .ok .unchanged) ∧ unitState w' other = unitState pair other ∧
        BuildDocument.load w' ⟨"typediagram.toml"⟩ = BuildDocument.load pair ⟨"typediagram.toml"⟩ ∧
        (setUnitUnder .none w' other false).2 = (setUnitUnder .none pair other false).2 := by
  intro unit other
  let text := "[build]\ntypediagram-enabled = true\n"
  have file : pair.isFile unit = true := by decide +kernel
  have edited : (BuildDocument.load pair (unitDocument unit)).toOption.map (fun d =>
      ((d.setEnabled true).2.toOption, (d.setEnabled true).1.orderedText?)) =
        some (some (), some text) := by decide +kernel
  have written : (Writer.write pair (unitDocument unit) text).2.toOption = some .written := by
    decide +kernel
  have printed : (Document.parse text).map (fun document =>
      (BuildDocument.mk (unitDocument unit) document).orderedText?) = some (some text) := by
    decide +kernel
  have there : Independent pair unit other := ⟨by decide +kernel, .inl (by decide +kernel)⟩
  have back : Independent pair other unit := ⟨by decide +kernel, .inl file⟩
  have refused : (setUnitUnder locked pair unit true).2.toOption = none := by decide +kernel
  obtain ⟨plain, failed, succeeded, exchange⟩ := setUnit_overrides pair unit true
  have set : setUnit pair unit true = ((Writer.write pair (unitDocument unit) text).1, .ok .written) :=
    (setUnit_of_ordered file edited).trans (Prod.ext rfl (BuildDocument.ok_of_toOption written))
  rw [set] at plain
  obtain ⟨d, opened, left⟩ := succeeded .none .written _ plain
  have same : (d.setEnabled true).1.text = text := by
    obtain ⟨d', opened', same⟩ := Option.map_eq_some_iff.mp edited
    cases opened.symm.trans (BuildDocument.ok_of_toOption opened')
    exact BuildDocument.text_of_orderedText? (Prod.mk.inj same).2
  rw [same] at left
  obtain ⟨document, parsed, printed⟩ := Option.map_eq_some_iff.mp printed
  have state := left.state
  rw [parsed] at state
  have nearest : nearestDocument? pair ⟨""⟩ = some ⟨"typediagram.toml"⟩ := by decide +kernel
  have outcomes := (exchange other false .none .none there back).1
  rw [plain] at outcomes
  refine ⟨there, back, ?_, _, set, state,
    left.unchanged.mpr ⟨document, parsed, BuildDocument.text_of_orderedText? printed⟩,
    left.units other there, (left.repositories ⟨""⟩).openedNearest _ nearest, outcomes⟩
  cases result : setUnitUnder locked pair unit true with
  | mk w' answer =>
    rw [result] at refused
    cases answer with
    | error failure => exact ⟨failure, by rw [failed locked failure w' result]⟩
    | ok outcome => cases refused

/-- A unit whose override document has a table that is there only as a parent. -/
def spaced : Workspace :=
  ⟨⟨[(["A.symbols.json"], .file []),
    (["A.typediagram.toml"], .file (Workspace.utf8 "[build .x]\n"))]⟩, []⟩

/-- The same setting writes its document twice. -/
theorem setUnit_again_spaced :
    let unit : Path := ⟨"A.symbols.json"⟩
    ∃ w', setUnit spaced unit true = (w', .ok .written) ∧ (setUnit w' unit true).2 = .ok .written := by
  intro unit
  let w' := (Writer.write spaced (unitDocument unit)
    "[build]\ntypediagram-enabled = true\n[build .x]\n").1
  have first : (BuildDocument.load spaced (unitDocument unit)).toOption.map (fun d =>
      ((d.setEnabled true).2.toOption, (d.setEnabled true).1.orderedText?)) =
        some (some (), some "[build]\ntypediagram-enabled = true\n[build .x]\n") := by
    decide +kernel
  have second : (BuildDocument.load w' (unitDocument unit)).toOption.map (fun d =>
      ((d.setEnabled true).2.toOption, (d.setEnabled true).1.orderedText?)) =
        some (some (), some "[build]\ntypediagram-enabled = true\n[build.x]\n") := by
    decide +kernel
  have written : (Writer.write spaced (unitDocument unit)
      "[build]\ntypediagram-enabled = true\n[build .x]\n").2.toOption = some .written := by
    decide +kernel
  have written' : (Writer.write w' (unitDocument unit)
      "[build]\ntypediagram-enabled = true\n[build.x]\n").2.toOption = some .written := by
    decide +kernel
  refine ⟨w', ?_, ?_⟩
  · rw [setUnit_of_ordered (by decide +kernel) first]
    exact Prod.ext rfl (BuildDocument.ok_of_toOption written)
  · rw [setUnit_of_ordered (by decide +kernel) second]
    exact BuildDocument.ok_of_toOption written'

end Toggle

end ClassDiagram
