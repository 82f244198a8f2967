import ClassDiagram.TypeGraph

/-! Symbols as a provider hands them over: type symbols that may be nested, in a tree of
namespaces, one tree for each unit that could be compiled. -/

namespace ClassDiagram

structure TypeRef where
  /-- Absent when the target cannot be resolved. -/
  id : Option String
  /-- Whether this is the type that every class derives from. -/
  isRoot : Bool
  deriving DecidableEq

namespace TypeRef

def known (id : String) : TypeRef := ⟨some id, false⟩

def unresolved : TypeRef := ⟨none, false⟩

end TypeRef

structure TypeSymbol where
  name : String
  scope : String
  docId : Option String
  kind : TypeKind
  access : Accessibility
  isAbstract : Bool
  isSealed : Bool
  isStatic : Bool
  /-- False for a type that is only seen through a reference. -/
  inSource : Bool
  base : Option TypeRef
  interfaces : List TypeRef
  nested : List TypeSymbol

namespace TypeSymbol

/-- The documentation identifier, or else the name qualified by the namespace. -/
def id (t : TypeSymbol) : String :=
  match t.docId with
  | some id => id
  | none => if t.scope = "" then t.name else t.scope ++ "." ++ t.name

def declared (t : TypeSymbol) : DeclaredType where
  id := t.id
  name := t.name
  scope := t.scope
  kind := t.kind
  access := t.access
  isAbstract := t.isAbstract
  isSealed := t.isSealed
  isStatic := t.isStatic

/-- The relations of the symbol itself. A reference that is not resolved gives none, and the
root type is no base. -/
def relations (t : TypeSymbol) : List Relation :=
  let inherited := match t.base with
    | some ⟨some target, false⟩ => [⟨t.id, target, .inheritance⟩]
    | _ => []
  inherited ++ t.interfaces.filterMap fun ref => ref.id.map fun target =>
    ⟨t.id, target, .realization⟩

end TypeSymbol

structure NamespaceTree where
  name : String
  types : List TypeSymbol
  children : List NamespaceTree

namespace NamespaceTree

def empty (name : String) : NamespaceTree := ⟨name, [], []⟩

/-- Changes the first child of a name, which is added at the end when there is none. -/
def withChild (name : String) (edit : NamespaceTree → NamespaceTree) :
    List NamespaceTree → List NamespaceTree
  | [] => [edit (empty name)]
  | child :: rest =>
    if child.name = name then edit child :: rest else child :: withChild name edit rest

def addAt (t : TypeSymbol) : List String → NamespaceTree → NamespaceTree
  | [], ns => { ns with types := ns.types ++ [t] }
  | name :: path, ns => { ns with children := withChild name (addAt t path) ns.children }

/-- The names of a dotted path; empty ones are left out. -/
def namesOf (path : String) : List String := (Text.split '.' path).filter (· ≠ "")

/-- Adds a type symbol to the namespace at a dotted path, which is made where it is missing. -/
def add (ns : NamespaceTree) (path : String) (t : TypeSymbol) : NamespaceTree :=
  addAt t (namesOf path) ns

end NamespaceTree

/-- One project as a provider found it. Without symbols the diagnostics say why. -/
structure BuildUnit where
  name : String
  path : Path
  symbols : Option NamespaceTree
  diagnostics : List String

end ClassDiagram
