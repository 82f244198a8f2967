import ClassDiagram.Descriptor
import ClassDiagram.Failure

/-! Where the documents lie that govern a build: the one of the repository, the one nearest to
a folder, the one of a single unit, and the solution manifest of a folder. -/

namespace ClassDiagram.Places

open Files (Workspace)

def documentName : String := "typediagram.toml"

def repositoryRoot? (w : Workspace) (start : Path) : Option Path :=
  start.ancestors.find? fun folder => w.holds (folder.joinName ".git")

/-- The document of the repository, or of `start` where there is none. -/
def repositoryDocument (w : Workspace) (start : Path) : Path :=
  ((repositoryRoot? w start).getD start).joinName documentName

def nearestDocument? (w : Workspace) (start : Path) : Option Path :=
  (start.ancestors.map fun folder => folder.joinName documentName).find? w.isFile

def unitDocument (unit : Path) : Path :=
  unit.folder.joinName (Descriptor.unitName unit ++ "." ++ documentName)

def isManifest (w : Workspace) (folder : Path) (name : String) : Bool :=
  w.isFile (folder.joinName name) && Descriptor.hasSuffix Descriptor.aggregateSuffix name

/-- The first solution manifest of a folder, by name. -/
def manifest? (w : Workspace) (folder : Path) : Except Failure (Option Path) :=
  match w.list folder with
  | .error cause => .error (.io folder cause)
  | .ok names =>
    let found := (names.filter (isManifest w folder)).mergeSort fun a b => a ≤ b
    .ok (found.head?.map folder.joinName)

theorem repositoryRoot?_mem {w : Workspace} {start root : Path}
    (found : repositoryRoot? w start = some root) : root ∈ start.ancestors :=
  List.mem_of_find?_eq_some found

theorem isFile_of_nearestDocument? {w : Workspace} {start path : Path}
    (found : nearestDocument? w start = some path) : w.isFile path = true :=
  List.find?_some found

end ClassDiagram.Places
