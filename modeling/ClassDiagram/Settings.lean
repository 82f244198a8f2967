import ClassDiagram.Accessibility
import ClassDiagram.Config
import ClassDiagram.Direction

/-! The settings of one diagram. A flag comes before the configuration, which comes before the
default. -/

namespace ClassDiagram

structure Overrides where
  out : Option Path
  direction : Option String
  minAccess : Option String

def Overrides.none : Overrides := ⟨.none, .none, .none⟩

structure Settings where
  direction : Option Direction
  floor : AccessFloor
  out : Path

namespace Settings

def defaultDirection : String := "LR"

def defaultMinAccess : String := "public"

def diagramName (stem : String) : String := stem ++ ".mmd"

/-- Where a diagram goes: into the configured folder, or else beside its descriptor. -/
def defaultOut (c : LoadedConfig) (descriptor : Path) (stem : String) : Path :=
  match c.config.emit.outDir with
  | some folder => (c.baseFolder.join folder).joinName (diagramName stem)
  | none => descriptor.folder.joinName (diagramName stem)

def resolve (c : LoadedConfig) (descriptor : Path) (stem : String) (flags : Overrides) :
    Settings where
  direction :=
    Direction.parse ((flags.direction.or c.config.emit.direction).getD defaultDirection)
  floor := AccessFloor.parse ((flags.minAccess.or c.config.emit.minAccess).getD defaultMinAccess)
  out := flags.out.getD (defaultOut c descriptor stem)

end Settings

end ClassDiagram
