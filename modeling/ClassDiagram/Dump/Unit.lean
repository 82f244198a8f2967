import ClassDiagram.Descriptor
import ClassDiagram.Dump.Interfaces
import ClassDiagram.Dump.Reading
import ClassDiagram.Files.Workspace

/-! The build unit of a symbol dump: its declarations as type symbols in a tree of namespaces,
with the full sets of interfaces. A dump that cannot be read is a unit without symbols. -/

namespace ClassDiagram

namespace TypeDecl

def defaultAccess (containing : List String) : Accessibility :=
  if containing.isEmpty then .intern else .priv

mutual

def symbol (index : Dump.Index) (scope : String) (containing : List String) :
    TypeDecl → TypeSymbol
  | d@⟨name, _, _, _, kind, access, isAbstract, isSealed, isStatic, inSource, base,
      interfaces, nested⟩ =>
    { name, scope, kind, isAbstract, isSealed, isStatic, inSource, base
      docId := some (d.idIn scope containing)
      access := access.getD (defaultAccess containing)
      interfaces := Dump.allInterfaces index base interfaces
      nested := symbols index scope (containing ++ [name]) nested }

def symbols (index : Dump.Index) (scope : String) (containing : List String) :
    List TypeDecl → List TypeSymbol
  | [] => []
  | d :: ds => symbol index scope containing d :: symbols index scope containing ds

end

end TypeDecl

namespace Dump

def namespaces (dump : Dump) : NamespaceTree :=
  let index := Index.ofDump dump
  dump.types.foldl (fun tree d => tree.add d.scope (d.symbol index d.scope [])) (.empty "")

def unit (path : Path) (dump : Dump) : BuildUnit where
  name := dump.name.getD (Descriptor.unitName path)
  path := path
  symbols := some dump.namespaces
  diagnostics := []

def failedUnit (path : Path) (diagnostic : String) : BuildUnit where
  name := Descriptor.unitName path
  path := path
  symbols := none
  diagnostics := [diagnostic]

def malformed : String := "malformed symbol dump: the document is not valid"

def loadUnit (w : Files.Workspace) (path : Path) : BuildUnit :=
  match w.readText path with
  | .error cause => failedUnit path ("cannot read " ++ path.text ++ ": " ++ cause.message)
  | .ok text =>
    match parse text with
    | none => failedUnit path malformed
    | some dump => unit path dump

end Dump

end ClassDiagram
