import ClassDiagram.Diagram
import ClassDiagram.Extraction
import ClassDiagram.Provider
import ClassDiagram.Settings
import ClassDiagram.Writer

/-! From a descriptor to a diagram in a file. All that can be found wrong with the descriptor,
the configuration or a unit is found before anything is written. -/

namespace ClassDiagram.Emission

open Files (Workspace)

structure Request where
  descriptor : Path
  /-- The configuration that is asked for. -/
  config : Option Path
  flags : Overrides

structure Plan where
  kind : DescriptorKind
  settings : Settings
  solution : Solution

def Plan.text (p : Plan) : String := Diagram.text p.solution p.settings.direction

def plan (registry : Registry) (w : Workspace) (r : Request) : Except Failure Plan :=
  match registry.find? r.descriptor with
  | none => .error (.notDescriptor r.descriptor)
  | some (provider, kind) => do
    let config ← LoadedConfig.load w r.config w.cwdPath
    let settings := Settings.resolve config r.descriptor (provider.stem r.descriptor) r.flags
    let units ← registry.load w r.descriptor
    let solution ← Solution.ofUnits settings.floor units
    return ⟨kind, settings, solution⟩

def emit (faults : Writer.Faults) (registry : Registry) (w : Workspace) (r : Request) :
    Workspace × Except Failure (Plan × Writer.Outcome) :=
  match plan registry w r with
  | .error failure => (w, .error failure)
  | .ok p =>
    let (w, outcome) := Writer.writeUnder faults w p.settings.out p.text
    (w, outcome.map fun outcome => (p, outcome))

end ClassDiagram.Emission
