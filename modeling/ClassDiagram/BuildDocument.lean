import ClassDiagram.Config
import ClassDiagram.Text.Blank
import ClassDiagram.Toml.Assembly
import ClassDiagram.Toml.Printer
import ClassDiagram.Writer

/-! The part of a document that governs builds: the table `build` holds the switch that turns
generation on, and a table of packages. Edits leave all else in the document as it was
written. -/

namespace ClassDiagram

open Files (Workspace)
open Toml (Item Scalar Table)

structure BuildDocument where
  path : Path
  document : Toml.Document

namespace Toml.Table

def child? (name : String) (t : Table) : Option Table := (t.find? name).bind Item.table?

def editChild (name : String) (implicit : Bool)
    (edit : Table → Table × Except Failure Unit) (t : Table) : Table × Except Failure Unit :=
  match t.find? name with
  | none =>
    let (child, result) := edit (.empty implicit false)
    (t.append (.new name) (.table child), result)
  | some (.table child) =>
    let (child, result) := edit child
    (t.replace name (.table child), result)
  | some _ => (t, .error (.notTable name))

def set (name : String) (content : Scalar) (t : Table) : Table :=
  t.insert name (.value (.new content))

end Toml.Table

namespace BuildDocument

/-- Opens a document. One that is missing is taken as empty. -/
def load (w : Workspace) (path : Path) : Except Failure BuildDocument :=
  let parse := fun text => match Toml.Document.parse text with
    | some document => .ok ⟨path, document⟩
    | none => .error (.malformedConfig path)
  match w.readText path with
  | .ok text => parse text
  | .error .missing => parse ""
  | .error cause => .error (.io path cause)

def text (d : BuildDocument) : String := d.document.text

def save (d : BuildDocument) (w : Workspace) : Workspace × Except Failure Writer.Outcome :=
  Writer.write w d.path d.text

def build? (d : BuildDocument) : Option Table := d.document.root.child? ConfigKey.build

def package? (d : BuildDocument) (name : String) : Option Table :=
  (d.build?.bind (Table.child? ConfigKey.packages)).bind (Table.child? name)

def hasPackage (d : BuildDocument) (name : String) : Bool := (d.package? name).isSome

def packageVersion? (d : BuildDocument) (name : String) : Option String :=
  ((d.package? name).bind (Table.find? ConfigKey.version)).bind Item.text?

def readSwitch (text : String) : Option Bool :=
  match (Text.trim text).toLower with
  | "true" => some true
  | "false" => some false
  | _ => none

/-- The switch; none where it is not set. It may also be given as a text. -/
def enabled? (d : BuildDocument) : Option Bool :=
  (d.build?.bind (Table.find? ConfigKey.enabled)).bind fun item =>
    item.bool?.or (item.text?.bind readSwitch)

def withRoot (d : BuildDocument) (root : Table) : BuildDocument :=
  { d with document := { d.document with root := root } }

/-- Edits the table `build`. A failed edit keeps the tables that it has made so far. -/
def edit (change : Table → Table × Except Failure Unit) (d : BuildDocument) :
    BuildDocument × Except Failure Unit :=
  let (root, result) := d.document.root.editChild ConfigKey.build false change
  (d.withRoot root, result)

def setEnabled (enabled : Bool) (d : BuildDocument) : BuildDocument × Except Failure Unit :=
  d.edit fun build => (build.set ConfigKey.enabled (.bool enabled), .ok ())

def pin (version : String) (package : Table) : Table :=
  (package.set ConfigKey.version (.text version)).set ConfigKey.privateAssets (.text "all")

def upsertPackage (name version : String) (d : BuildDocument) :
    BuildDocument × Except Failure Unit :=
  d.edit <| Table.editChild ConfigKey.packages true <| Table.editChild name false fun package =>
    (pin version package, .ok ())

/-- Removes a package, and the table of packages when it is left empty. Tells whether the
package was there. -/
def removePackage (name : String) (d : BuildDocument) : BuildDocument × Bool :=
  match d.build? with
  | none => (d, false)
  | some build =>
    match build.child? ConfigKey.packages with
    | none => (d, false)
    | some packages =>
      let kept := packages.remove name
      let build :=
        if kept.entries.isEmpty then build.remove ConfigKey.packages
        else build.replace ConfigKey.packages (.table kept)
      (d.withRoot (d.document.root.replace ConfigKey.build (.table build)),
        (packages.find? name).isSome)

end BuildDocument

end ClassDiagram
