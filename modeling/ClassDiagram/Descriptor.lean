import ClassDiagram.Path

/-! Descriptors: the files that name what is drawn. A descriptor of one unit is a symbol dump,
an aggregate descriptor is a solution manifest, and the file name tells which. -/

namespace ClassDiagram

inductive DescriptorKind where
  | unit
  | aggregate
  deriving DecidableEq

namespace DescriptorKind

def label : DescriptorKind → String
  | unit => "unit"
  | aggregate => "aggregate"

end DescriptorKind

namespace Descriptor

def unitSuffix : String := ".symbols.json"

def aggregateSuffix : String := ".solution.toml"

def hasSuffix (suffix name : String) : Bool := name.toLower.endsWith suffix

def kindOfName? (name : String) : Option DescriptorKind :=
  if hasSuffix unitSuffix name then some .unit
  else if hasSuffix aggregateSuffix name then some .aggregate
  else none

def kind? (p : Path) : Option DescriptorKind := p.fileName?.bind kindOfName?

def cutSuffix (suffix name : String) : String :=
  String.ofList (name.toList.take (name.length - suffix.length))

/-- The file name without the suffix of a descriptor, or else without its extension. -/
def unitName (p : Path) : String :=
  match p.fileName? with
  | none => ""
  | some name =>
    match kindOfName? name with
    | some .unit => cutSuffix unitSuffix name
    | some .aggregate => cutSuffix aggregateSuffix name
    | none => (Path.splitName name).1

end Descriptor

end ClassDiagram
