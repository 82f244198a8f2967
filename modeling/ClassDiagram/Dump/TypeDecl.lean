import ClassDiagram.Symbols

/-! What a symbol dump declares. A declaration names its direct base and interfaces only; its
identifier is written out or follows from where it stands. -/

namespace ClassDiagram

def rootTypeId : String := "T:System.Object"

namespace TypeRef

/-- A reference as it is declared; the root type is known by its identifier, too. -/
def declared (id : Option String) (isRoot : Bool) : TypeRef :=
  ⟨id, isRoot || id == some rootTypeId⟩

end TypeRef

structure TypeDecl where
  name : String
  scope : String
  id : Option String
  /-- The number of generic parameters. -/
  arity : Nat
  kind : TypeKind
  access : Option Accessibility
  isAbstract : Bool
  isSealed : Bool
  isStatic : Bool
  inSource : Bool
  base : Option TypeRef
  interfaces : List TypeRef
  nested : List TypeDecl

structure Dump where
  name : Option String
  types : List TypeDecl
  /-- Types of other units, of which only the interfaces matter. -/
  references : List TypeDecl

namespace TypeDecl

/-- A documentation identifier: the namespace, the types around it and the name, with dots
between them, and the number of generic parameters where there are any. -/
def docId (scope : String) (containing : List String) (name : String) (arity : Nat) : String :=
  let around := (scope :: containing).filter (· ≠ "")
  let suffix := if arity = 0 then "" else "\x60" ++ toString arity
  "T:" ++ String.join (around.map (· ++ ".")) ++ name ++ suffix

def idIn (scope : String) (containing : List String) (d : TypeDecl) : String :=
  d.id.getD (docId scope containing d.name d.arity)

end TypeDecl

end ClassDiagram
