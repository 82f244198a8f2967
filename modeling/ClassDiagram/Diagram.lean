import ClassDiagram.Direction
import ClassDiagram.Label

/-! The class diagram of a solution, as a list of lines and as a text. Of the declarations of
one identifier the first is drawn. The types stand in one block for each namespace, blocks in
the order of the namespaces' own texts and types in the order of their names; the relations
follow, project by project and sorted by source. -/

namespace ClassDiagram.Diagram

inductive Line where
  | header
  | direction (towards : Direction)
  | opening (scope : String)
  | member (label : String) (stereotype : Option String)
  | closing
  | edge (source : String) (kind : RelationKind) (target : String)
  deriving DecidableEq

def glyph : RelationKind → String
  | .inheritance => "<|--"
  | .realization => "..|>"

namespace Line

def text : Line → String
  | header => "classDiagram"
  | direction towards => "direction " ++ towards.text
  | opening scope => "namespace " ++ scope ++ " \x7b"
  | member label none => "  class " ++ label
  | member label (some mark) => "  class " ++ label ++ " <<" ++ mark ++ ">>"
  | closing => "\x7d"
  | edge source kind target => source ++ " " ++ glyph kind ++ " " ++ target

end Line

def lookup (id : String) (types : List DeclaredType) : Option DeclaredType :=
  types.find? fun t => t.id = id

/-- Keeps the first type of each identifier. -/
def firsts : List DeclaredType → List DeclaredType
  | [] => []
  | t :: ts => t :: (firsts ts).filter fun other => other.id ≠ t.id

def memberOrder (a b : DeclaredType) : Bool :=
  a.name < b.name || (a.name == b.name && a.id ≤ b.id)

def scopes (types : List DeclaredType) : List String :=
  ((types.map DeclaredType.scope).eraseDups).mergeSort fun a b => a ≤ b

def members (types : List DeclaredType) (scope : String) : List DeclaredType :=
  (types.filter fun t => t.scope = scope).mergeSort memberOrder

def block (types : List DeclaredType) (scope : String) : List Line :=
  [.opening (Label.scope scope)] ++
    (members types scope).map (fun t => .member (Label.qualified t) t.stereotype) ++ [.closing]

/-- The edge of a relation; none when its source is not declared. -/
def edge (types : List DeclaredType) (r : Relation) : Option Line :=
  (lookup r.source types).map fun source =>
    let target := match lookup r.target types with
      | some target => Label.qualified target
      | none => Label.external r.target
    .edge (Label.qualified source) r.kind target

def edges (types : List DeclaredType) (p : Project) : List Line :=
  (p.relations.mergeSort fun a b => a.source ≤ b.source).filterMap (edge types)

def lines (s : Solution) (direction : Option Direction) : List Line :=
  let types := firsts s.types
  [.header] ++ (direction.map Line.direction).toList ++ (scopes types).flatMap (block types) ++
    s.projects.flatMap (edges types)

def text (s : Solution) (direction : Option Direction) : String :=
  "\n".intercalate ((lines s direction).map Line.text) ++ "\n"

end ClassDiagram.Diagram
