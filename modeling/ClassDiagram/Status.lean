import ClassDiagram.Manifest
import ClassDiagram.Toggle

/-! What is installed and turned on, as seen from a folder: the nearest document, and the units
of the solution in the folder. -/

namespace ClassDiagram

open Files (Workspace)

structure UnitStatus where
  path : Path
  state : Toggle.UnitState

structure Status where
  document : Option Path
  packageVersion : Option String
  default : Option Bool
  manifest : Option Path
  units : List UnitStatus

namespace Status

def unitsOf (w : Workspace) : Option Path → Except Failure (List UnitStatus)
  | none => .ok []
  | some manifest => do
    let units ← Manifest.units w manifest
    units.mapM fun unit => (Toggle.unitState w unit).map fun state => ⟨unit, state⟩

def document? (w : Workspace) (start : Path) : Except Failure (Option BuildDocument) :=
  match Places.nearestDocument? w start with
  | none => .ok none
  | some path => (BuildDocument.load w path).map some

def gather (w : Workspace) (start : Path) : Except Failure Status := do
  let document ← document? w start
  let manifest ← Places.manifest? w start
  let units ← unitsOf w manifest
  return {
    document := document.map BuildDocument.path
    packageVersion := document.bind fun d => d.packageVersion? Toggle.packageName
    default := document.bind BuildDocument.enabled?
    manifest
    units }

end Status

end ClassDiagram
