import ClassDiagram.Failure
import ClassDiagram.Glob.Walk
import ClassDiagram.Toml.Data

/-! Solution manifests: documents that list the units of a solution, by path or by pattern,
relative to the folder of the manifest. -/

namespace ClassDiagram.Manifest

open Files (Workspace)
open Toml (Data)

def readTexts : Data → Option (List String)
  | .list items => items.mapM Data.text?
  | _ => none

def readEntries (data : Data) : Option (List String) :=
  match data.fields? ["name", "units"] 0 with
  | some [name, units] => do
    let _ ← Data.optional Data.text? name
    Data.fieldOr [] readTexts units
  | _ => none

def entries? (text : String) : Option (List String) :=
  (Toml.Document.dataOf? text).bind readEntries

def resolve (w : Workspace) (base : Path) (entry : String) : Except Failure (List Path) :=
  if Glob.isPattern entry then
    match Glob.matches? w (base.joinName entry) with
    | some found => .ok found
    | none => .error (.invalidPattern entry)
  else .ok [base.joinName entry]

def addNew (known found : List Path) : List Path :=
  found.foldl (fun ps p => if ps.any (·.same p) then ps else ps ++ [p]) known

def resolveAll (w : Workspace) (base : Path) (known : List Path) :
    List String → Except Failure (List Path)
  | [] => .ok known
  | entry :: rest =>
    match resolve w base entry with
    | .error failure => .error failure
    | .ok found => resolveAll w base (addNew known found) rest

/-- The unit descriptors that a manifest lists, each once, where it is first mentioned. -/
def units (w : Workspace) (path : Path) : Except Failure (List Path) :=
  match w.readText path with
  | .error cause => .error (.io path cause)
  | .ok text =>
    match entries? text with
    | none => .error (.malformedManifest path)
    | some entries => resolveAll w path.folder [] entries

end ClassDiagram.Manifest
