import ClassDiagram.Proofs.BuildDocument.Rereading
import ClassDiagram.Proofs.Files.Utf8
import ClassDiagram.Proofs.Writer.Elsewhere
import ClassDiagram.Toggle

/-! Setting one unit. The override document lies beside the unit, so it can be written where the unit
is, and nothing else changes. -/

namespace ClassDiagram

namespace Path

theorem mem_segments_of_mem_components {p : Path} {name : String}
    (mem : Component.name name ∈ p.components) : name ∈ p.segments := by
  have inside : ∀ segments : List String,
      Component.name name ∈ (segments.filter fun s => !isIdle s).map Component.ofSegment →
        name ∈ segments := by
    intro segments mem
    obtain ⟨segment, found, same⟩ := List.mem_map.mp mem
    unfold Component.ofSegment at same
    split at same
    · cases same
    · cases same
      exact (List.mem_filter.mp found).1
  unfold components at mem
  split at mem
  · exact inside _ (by simpa using mem)
  · split at mem
    · next segments =>
      rw [segments]
      exact List.mem_cons_of_mem _ (inside _ (by simpa using mem))
    · exact inside _ mem

theorem slash_notMem_fileName {p : Path} {name : String} (named : p.fileName? = some name) :
    '/' ∉ name.toList := by
  unfold fileName? at named
  split at named
  · next last =>
    cases named
    exact slash_notMem_segments (mem_segments_of_mem_components (List.mem_of_getLast? last))
  · cases named

end Path

namespace Descriptor

theorem slash_notMem_unitName (p : Path) : '/' ∉ (unitName p).toList := by
  have front : ∀ (name : String) (n : Nat), '/' ∉ name.toList →
      '/' ∉ (String.ofList (name.toList.take n)).toList := by
    intro name n noSlash mem
    rw [String.toList_ofList] at mem
    exact noSlash (List.mem_of_mem_take mem)
  unfold unitName
  split
  · simp
  · next name named =>
    have noSlash := Path.slash_notMem_fileName named
    split
    · exact front name _ noSlash
    · exact front name _ noSlash
    · unfold Path.splitName
      simp only
      split
      · exact noSlash
      · exact front name _ noSlash

end Descriptor

open Files (Workspace)

theorem Files.Workspace.location_of_cwd {v w : Workspace} (same : v.cwd = w.cwd) (p : Path) :
    v.location p = w.location p := by
  rw [location, start, same]
  rfl

namespace Writer

open Files (Bytes Location Tree Workspace)
open Files.Workspace (read_eq_ok_iff read_of_resolve find?_of_read resolve_of_keepsFolders)

variable {w : Workspace} {target p : Path} {bytes old : Bytes} {t : Tree} {moved : Bool}
  {result : Except Failure Outcome}

theorem Ending.read_other (ending : Ending w target bytes t moved result)
    (read : w.read p = .ok old) (other : w.location p ≠ w.location target) :
    (w.onTree t).read p = .ok old := by
  have held : t.find? (w.location p) = some (.file old) :=
    (ending.find?_other other).trans (find?_of_read read)
  exact read_of_resolve
    (resolve_of_keepsFolders ending.apart.keepsFolders (read_eq_ok_iff.mp read) held)

theorem Ending.read_same {outcome : Outcome} (ending : Ending w target bytes t moved (.ok outcome))
    (read : w.read p = .ok old) (same : w.location p = w.location target) :
    (w.onTree t).read p = .ok bytes := by
  cases ending with
  | kept held =>
    have there := find?_of_read read
    rw [same] at there
    cases there.symm.trans (find?_of_read held)
    exact read
  | replaced ends takes other =>
    rw [← same]
    exact read_of_resolve (Files.Workspace.resolve_place (read_eq_ok_iff.mp read) rfl bytes)

theorem Ending.isFile {outcome : Outcome} (ending : Ending w target bytes t moved (.ok outcome))
    (file : w.isFile p = true) : (w.onTree t).isFile p = true := by
  obtain ⟨old, read⟩ := Files.Workspace.read_of_isFile file
  by_cases same : w.location p = w.location target
  · exact Files.Workspace.isFile_of_read (ending.read_same read same)
  · exact Files.Workspace.isFile_of_read (ending.read_other read same)

theorem writeUnder_cases {folder : Path} {name : String} (reached : w.Reached folder)
    (proper : Files.ProperName name) (faults : Faults) (content : String) :
    (∃ failure, writeUnder faults w (folder.joinName name) content = (w, .error failure)) ∨
      ∃ t moved outcome,
        Ending w (folder.joinName name) (Workspace.utf8 content) t moved (.ok outcome) ∧
          writeUnder faults w (folder.joinName name) content = (w.onTree t, .ok outcome) := by
  have ending := run_ending reached proper faults content
  unfold writeUnder
  cases result : (run faults w (folder.joinName name) content).result with
  | error failure =>
    simp only [result] at ending
    rw [ending.failed]
    exact .inl ⟨failure, rfl⟩
  | ok outcome =>
    simp only [result] at ending
    exact .inr ⟨_, _, outcome, ending, rfl⟩

end Writer

namespace BuildDocument

open Files (Location ProperName Tree Workspace)
open ClassDiagram.Files.Tree (Apart)
open Writer (Ending)

theorem load_of_apart {w : Workspace} {t : Tree} {place : Location} {p : Path} {name : String}
    (apart : Apart place w.tree t) (reached : w.Reached p) (proper : ProperName name)
    (other : w.location (p.joinName name) ≠ place) :
    load (w.onTree t) (p.joinName name) = load w (p.joinName name) := by
  have same := Files.Workspace.resolve_of_apart apart reached proper other
  unfold load Workspace.readText Workspace.read Workspace.entry
  rw [same]

theorem save_cases {w : Workspace} {folder : Path} {name : String} (reached : w.Reached folder)
    (proper : ProperName name) {d : BuildDocument} (path : d.path = folder.joinName name) :
    (∃ failure, d.save w = (w, .error failure)) ∨
      ∃ t moved outcome, Ending w d.path (Workspace.utf8 d.text) t moved (.ok outcome) ∧
        d.save w = (w.onTree t, .ok outcome) := by
  rw [save, path]
  exact Writer.writeUnder_cases reached proper .none d.text

end BuildDocument

namespace Toggle

open Files (Bytes Location ProperName Tree Workspace)
open ClassDiagram.Files.Tree (Apart)
open Writer (Ending)

def unitDocumentName (unit : Path) : String :=
  Descriptor.unitName unit ++ "." ++ Places.documentName

theorem unitDocumentName_ne (unit : Path) {name : String} (short : name.length < 17) :
    unitDocumentName unit ≠ name := by
  have ending : ("." : String).length + Places.documentName.length = 17 := by decide
  rintro rfl
  rw [unitDocumentName, String.length_append, String.length_append] at short
  omega

theorem proper_unitDocumentName (unit : Path) : ProperName (unitDocumentName unit) := by
  refine ⟨?_, unitDocumentName_ne unit (by decide), ?_⟩
  · simp [Path.isIdle, unitDocumentName_ne unit (show "".length < 17 by decide),
      unitDocumentName_ne unit (show ".".length < 17 by decide)]
  · have noSlash := Descriptor.slash_notMem_unitName unit
    simp [unitDocumentName, noSlash, Places.documentName]

theorem unitDocument_eq (unit : Path) :
    Places.unitDocument unit = unit.folder.joinName (unitDocumentName unit) := rfl

theorem load_unitDocument_of_apart {w : Workspace} {t : Tree} {place : Location} {unit : Path}
    (apart : Apart place w.tree t) (reached : w.Reached unit.folder)
    (other : w.location (Places.unitDocument unit) ≠ place) :
    BuildDocument.load (w.onTree t) (Places.unitDocument unit) =
      BuildDocument.load w (Places.unitDocument unit) := by
  rw [unitDocument_eq] at other ⊢
  exact BuildDocument.load_of_apart apart reached (proper_unitDocumentName unit) other

/-- What setting one unit comes to: a failure changes nothing, and else the override document of
the unit is written and nothing else. -/
inductive Step (w : Workspace) (enabled : Bool) (unit : Path) :
    Workspace × Except Failure Writer.Outcome → Prop
  | refused (failure : Failure) : Step w enabled unit (w, .error failure)
  | set {d : BuildDocument} {t : Tree} {moved : Bool} {outcome : Writer.Outcome}
      (file : w.isFile unit = true)
      (opened : BuildDocument.load w (Places.unitDocument unit) = .ok d)
      (done : (d.setEnabled enabled).2 = .ok ())
      (ending : Ending w (Places.unitDocument unit)
        (Workspace.utf8 (d.setEnabled enabled).1.text) t moved (.ok outcome)) :
      Step w enabled unit (w.onTree t, .ok outcome)

/-- `setUnit`, where the write may go wrong in any of its operations. -/
def setUnitUnder (faults : Writer.Faults) (w : Workspace) (unit : Path) (enabled : Bool) :
    Workspace × Except Failure Writer.Outcome :=
  if w.isFile unit then
    match BuildDocument.load w (Places.unitDocument unit) with
    | .error failure => (w, .error failure)
    | .ok document =>
      match document.setEnabled enabled with
      | (_, .error failure) => (w, .error failure)
      | (document, .ok _) => Writer.writeUnder faults w document.path document.text
  else (w, .error (.notFound unit))

theorem setUnitUnder_none (w : Workspace) (unit : Path) (enabled : Bool) :
    setUnitUnder .none w unit enabled = setUnit w unit enabled := by
  unfold setUnitUnder setUnit BuildDocument.save Writer.write
  rfl

theorem setUnitUnder_step (faults : Writer.Faults) (w : Workspace) (enabled : Bool) (unit : Path) :
    Step w enabled unit (setUnitUnder faults w unit enabled) := by
  unfold setUnitUnder
  cases file : w.isFile unit with
  | false => exact .refused _
  | true =>
    cases opened : BuildDocument.load w (Places.unitDocument unit) with
    | error failure => exact .refused failure
    | ok d =>
      have path : (d.setEnabled enabled).1.path = unit.folder.joinName (unitDocumentName unit) :=
        show d.path = _ from BuildDocument.path_of_load opened
      have written := Writer.writeUnder_cases (Files.Workspace.reached_of_isFile file)
        (proper_unitDocumentName unit) faults (d.setEnabled enabled).1.text
      have set := @Step.set w enabled unit d
      rw [if_pos rfl]
      rw [← path] at written
      cases changed : d.setEnabled enabled with
      | mk d' result =>
        simp only [changed] at path written set
        cases result with
        | error failure => simp only [changed]; exact .refused failure
        | ok _ =>
          simp only [changed]
          obtain ⟨failure, failed⟩ | ⟨t, moved, outcome, ending, written⟩ := written
          · rw [failed]
            exact .refused failure
          · rw [written]
            exact set file opened rfl (path ▸ ending)

theorem setUnit_step (w : Workspace) (enabled : Bool) (unit : Path) :
    Step w enabled unit (setUnit w unit enabled) :=
  setUnitUnder_none w unit enabled ▸ setUnitUnder_step .none w enabled unit

/-- The override document of a unit has been written with the switch set. -/
def IsSet (w : Workspace) (enabled : Bool) (unit : Path) : Prop :=
  ∃ (before : Workspace) (path : Path) (d : BuildDocument),
    BuildDocument.load before path = .ok d ∧ (d.setEnabled enabled).2 = .ok () ∧
      w.read (Places.unitDocument unit) = .ok (Workspace.utf8 (d.setEnabled enabled).1.text)

section

variable {w : Workspace} {enabled : Bool} {unit other : Path}
  {result : Workspace × Except Failure Writer.Outcome}

theorem Step.cwd (step : Step w enabled unit result) : result.1.cwd = w.cwd := by
  cases step <;> rfl

theorem Step.apart (step : Step w enabled unit result) :
    Apart (w.location (Places.unitDocument unit)) w.tree result.1.tree := by
  cases step with
  | refused => exact .refl _ _
  | set _ _ _ ending => exact ending.apart

theorem Step.onTree (step : Step w enabled unit result) : w.onTree result.1.tree = result.1 :=
  congrArg (Workspace.mk result.1.tree) step.cwd.symm

theorem Step.location (step : Step w enabled unit result) : ∀ p, result.1.location p = w.location p :=
  Files.Workspace.location_of_cwd step.cwd

theorem Step.reached {p : Path} (step : Step w enabled unit result) (reached : result.1.Reached p) :
    w.Reached p := by
  rw [← step.onTree] at reached
  exact Files.Workspace.Reached.onTree (w := w.onTree result.1.tree) step.apart.symm.keepsFolders
    reached

theorem Step.written {outcome : Writer.Outcome} (step : Step w enabled unit result)
    (well : result.2 = .ok outcome) : ∃ d,
      BuildDocument.load w (Places.unitDocument unit) = .ok d ∧ (d.setEnabled enabled).2 = .ok () ∧
        result.1.read (Places.unitDocument unit) =
          .ok (Workspace.utf8 (d.setEnabled enabled).1.text) := by
  cases step with
  | refused => cases well
  | set file opened done ending => exact ⟨_, opened, done, ending.read⟩

theorem Step.isSet {outcome : Writer.Outcome} (step : Step w enabled unit result)
    (well : result.2 = .ok outcome) : IsSet result.1 enabled unit :=
  ⟨w, _, step.written well⟩

/-- What is set stays set, also where two units share their override document. -/
theorem Step.keeps (step : Step w enabled unit result) (set : IsSet w enabled other) :
    IsSet result.1 enabled other := by
  cases step with
  | refused => exact set
  | set file opened done ending =>
    obtain ⟨before, path, d, opened', done', read⟩ := set
    by_cases same : w.location (Places.unitDocument other) = w.location (Places.unitDocument unit)
    · exact ⟨w, _, _, opened, done, ending.read_same read same⟩
    · exact ⟨before, path, d, opened', done', ending.read_other read same⟩

theorem Step.find?_other (step : Step w enabled unit result) {loc : Files.Location}
    (other : loc ≠ w.location (Places.unitDocument unit)) :
    result.1.tree.find? loc = w.tree.find? loc := by
  cases step with
  | refused => rfl
  | set file opened done ending => exact ending.find?_other other

theorem Step.load_other (step : Step w enabled unit result) (reached : w.Reached other.folder)
    (apart : w.location (Places.unitDocument other) ≠ w.location (Places.unitDocument unit)) :
    BuildDocument.load result.1 (Places.unitDocument other) =
      BuildDocument.load w (Places.unitDocument other) := by
  rw [← step.onTree]
  exact load_unitDocument_of_apart step.apart reached apart

theorem Step.read_other {p : Path} {bytes : Bytes} (step : Step w enabled unit result)
    (read : w.read p = .ok bytes) (apart : w.location p ≠ w.location (Places.unitDocument unit)) :
    result.1.read p = .ok bytes := by
  cases step with
  | refused => exact read
  | set _ _ _ ending => exact ending.read_other read apart

theorem Step.isFile {p : Path} (step : Step w enabled unit result) (file : w.isFile p = true) :
    result.1.isFile p = true := by
  cases step with
  | refused => exact file
  | set _ _ _ ending => exact ending.isFile file

theorem Step.there {outcome : Writer.Outcome} (step : Step w enabled unit result)
    (well : result.2 = .ok outcome) : result.1.isFile unit = true := by
  cases step with
  | refused => cases well
  | set file _ _ ending => exact ending.isFile file

theorem Step.enlarges (step : Step w enabled unit result) (cwd : ∀ name ∈ w.cwd, ProperName name) :
    w.tree.Enlarges result.1.tree := by
  cases step with
  | refused => exact .refl _
  | set _ _ _ ending => exact ending.enlarges cwd

theorem Step.failed {failure : Failure} (step : Step w enabled unit result)
    (error : result.2 = .error failure) : result.1 = w := by
  cases step with
  | refused => rfl
  | set => cases error

theorem Step.readText {outcome : Writer.Outcome} (step : Step w enabled unit result)
    (well : result.2 = .ok outcome) : ∃ d, BuildDocument.load w (Places.unitDocument unit) = .ok d ∧
      result.1.readText (Places.unitDocument unit) = .ok (d.setEnabled enabled).1.text := by
  cases step with
  | refused => cases well
  | set file opened done ending =>
    exact ⟨_, opened, Files.Workspace.readText_of_utf8 ending.read⟩

end

theorem IsSet.shown {w : Workspace} {enabled : Bool} {unit : Path} {e : BuildDocument}
    (set : IsSet w enabled unit) (opened : BuildDocument.load w (Places.unitDocument unit) = .ok e) :
    e.enabled? = some enabled := by
  obtain ⟨before, path, d, loaded, done, read⟩ := set
  have kept := BuildDocument.kept_run (BuildDocument.kept_load loaded) (.setEnabled enabled)
  have text := Files.Workspace.readText_of_utf8 read
  have same := BuildDocument.switches_of_load kept text opened
  exact (congrArg Switches.enabled same).trans (BuildDocument.enabled?_setEnabled done)

theorem unitState_reread {w : Workspace} {enabled : Bool} {unit : Path} {text : String}
    (there : w.isFile unit = true) (set : IsSet w enabled unit)
    (read : w.readText (Places.unitDocument unit) = .ok text) :
    unitState w unit = match Toml.Document.parse text with
      | some _ => .ok (.ofSwitch (some enabled))
      | none => .error (.malformedConfig (Places.unitDocument unit)) := by
  have loads := BuildDocument.load_of_readText read
  unfold unitState
  rw [if_pos there]
  cases parsed : Toml.Document.parse text with
  | none =>
    rw [loads, parsed]
    rfl
  | some document =>
    rw [parsed] at loads
    rw [loads]
    simp only [Except.map, set.shown loads]

theorem load_of_unitState {w : Workspace} {unit : Path} {state : UnitState}
    (file : w.isFile unit = true) (done : unitState w unit = .ok state) :
    ∃ d, BuildDocument.load w (Places.unitDocument unit) = .ok d ∧ state = .ofSwitch d.enabled? := by
  rw [unitState, if_pos file] at done
  cases opened : BuildDocument.load w (Places.unitDocument unit) with
  | error failure =>
    rw [opened] at done
    cases done
  | ok d =>
    rw [opened] at done
    cases done
    exact ⟨d, rfl, rfl⟩

theorem unitState_of_isSet {w : Workspace} {enabled : Bool} {unit : Path} {state : UnitState}
    (file : w.isFile unit = true) (set : IsSet w enabled unit)
    (done : unitState w unit = .ok state) : state = if enabled then .enabled else .disabled := by
  obtain ⟨d, opened, rfl⟩ := load_of_unitState file done
  rw [set.shown opened]
  cases enabled <;> rfl

end Toggle

end ClassDiagram
