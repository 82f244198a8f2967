import ClassDiagram.Dump.Unit
import ClassDiagram.Manifest

/-! Providers load build units from descriptors. A registry asks its providers in order; the
first one that knows a descriptor loads it. -/

namespace ClassDiagram

open Files (Workspace)

structure Provider where
  name : String
  /-- What a descriptor stands for, if the provider knows it. -/
  kind? : Path → Option DescriptorKind
  /-- The name of what is made from a descriptor. -/
  stem : Path → String
  load : Workspace → Path → Except Failure (List BuildUnit)

namespace Provider

def defaultStem (path : Path) : String := path.fileStem?.getD ""

def loadDump (w : Workspace) (path : Path) : Except Failure (List BuildUnit) :=
  match Descriptor.kind? path with
  | some .unit => .ok [Dump.loadUnit w path]
  | some .aggregate => (Manifest.units w path).map fun paths => paths.map (Dump.loadUnit w)
  | none => .error (.notDump path)

def dump : Provider where
  name := "symbol-dump"
  kind? := Descriptor.kind?
  stem := Descriptor.unitName
  load := loadDump

end Provider

abbrev Registry := List Provider

namespace Registry

def builtin : Registry := [.dump]

def find? (registry : Registry) (path : Path) : Option (Provider × DescriptorKind) :=
  registry.findSome? fun p => (p.kind? path).map fun kind => (p, kind)

def load (registry : Registry) (w : Workspace) (path : Path) : Except Failure (List BuildUnit) :=
  match registry.find? path with
  | none => .error (.notDescriptor path)
  | some (provider, _) => provider.load w path

end Registry

end ClassDiagram
