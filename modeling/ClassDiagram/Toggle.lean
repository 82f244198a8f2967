import ClassDiagram.BuildDocument

/-! The switches of a build: generation is installed for a repository, turned on or off as its
default, and overridden for single units. -/

namespace ClassDiagram.Toggle

open Files (Workspace)

def packageName : String := "typediagram-build"

def defaultVersion : String := "1.1.0"

inductive UnitState where
  /-- There is no such unit. -/
  | missing
  /-- The default of the repository applies. -/
  | inherits
  | enabled
  | disabled
  deriving DecidableEq

namespace UnitState

def text : UnitState → String
  | missing => "(missing)"
  | inherits => "(inherits)"
  | enabled => "true"
  | disabled => "false"

def label : UnitState → String
  | missing => "missing"
  | inherits => "inherits"
  | enabled => "enabled"
  | disabled => "disabled"

def ofSwitch : Option Bool → UnitState
  | none => inherits
  | some true => enabled
  | some false => disabled

end UnitState

def unitState (w : Workspace) (unit : Path) : Except Failure UnitState :=
  if w.isFile unit then
    (BuildDocument.load w (Places.unitDocument unit)).map fun d => .ofSwitch d.enabled?
  else .ok .missing

/-- Overrides the default for one unit. -/
def setUnit (w : Workspace) (unit : Path) (enabled : Bool) :
    Workspace × Except Failure Writer.Outcome :=
  if w.isFile unit then
    match BuildDocument.load w (Places.unitDocument unit) with
    | .error failure => (w, .error failure)
    | .ok document =>
      match document.setEnabled enabled with
      | (_, .error failure) => (w, .error failure)
      | (document, .ok _) => document.save w
  else (w, .error (.notFound unit))

def change (w : Workspace) (path : Path)
    (edit : BuildDocument → BuildDocument × Except Failure Unit) :
    Workspace × Except Failure BuildDocument :=
  match BuildDocument.load w path with
  | .error failure => (w, .error failure)
  | .ok document =>
    match edit document with
    | (_, .error failure) => (w, .error failure)
    | (document, .ok _) =>
      let (w, saved) := document.save w
      (w, saved.map fun _ => document)

def addPackage (version : String) (document : BuildDocument) :
    BuildDocument × Except Failure Unit :=
  match document.upsertPackage packageName version with
  | (document, .ok _) => document.setEnabled true
  | failed => failed

/-- Adds the package to the document of the repository and turns generation on. -/
def install (w : Workspace) (start : Path) (version : String) :
    Workspace × Except Failure BuildDocument :=
  change w (Places.repositoryDocument w start) (addPackage version)

def setDefault (w : Workspace) (start : Path) (enabled : Bool) :
    Workspace × Except Failure BuildDocument :=
  change w (Places.repositoryDocument w start) (·.setEnabled enabled)

/-- Removes the package from the nearest document. The answer is none where there is no document. -/
def uninstall (w : Workspace) (start : Path) :
    Workspace × Except Failure (Option BuildDocument) :=
  match Places.nearestDocument? w start with
  | none => (w, .ok none)
  | some path =>
    match BuildDocument.load w path with
    | .error failure => (w, .error failure)
    | .ok document =>
      match document.removePackage packageName with
      | (document, false) => (w, .ok (some document))
      | (document, true) =>
        let (w, saved) := document.save w
        (w, saved.map fun _ => some document)

theorem unitState_missing {w : Workspace} {unit : Path} (absent : w.isFile unit = false) :
    unitState w unit = .ok .missing := by
  simp [unitState, absent]

end ClassDiagram.Toggle
