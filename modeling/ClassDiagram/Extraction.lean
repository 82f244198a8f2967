import ClassDiagram.Symbols

/-! From the symbols of a unit to its project. A type symbol is drawn when it is declared in
source and reaches the floor, and its nested types only then. Types are gathered in the order
in which their identifiers turn up, parts of one type merged into one; relations are gathered
in order and once each. -/

namespace ClassDiagram

structure Gathered where
  types : List DeclaredType
  relations : List Relation

namespace Gathered

def empty : Gathered := ⟨[], []⟩

/-- Merges a type into the one of its identifier, or puts it at the end. -/
def mergeInto (t : DeclaredType) : List DeclaredType → List DeclaredType
  | [] => [t]
  | x :: xs => if x.id = t.id then x.merge t :: xs else x :: mergeInto t xs

def relate (known found : List Relation) : List Relation :=
  found.foldl (fun rs r => r.insert rs) known

def add (g : Gathered) (t : TypeSymbol) : Gathered where
  types := mergeInto t.declared g.types
  relations := relate g.relations t.relations

end Gathered

namespace TypeSymbol

def drawn (floor : AccessFloor) (t : TypeSymbol) : Bool := t.inSource && floor.admits t.access

mutual

def gather (floor : AccessFloor) (g : Gathered) : TypeSymbol → Gathered
  | t@⟨_, _, _, _, _, _, _, _, _, _, _, nested⟩ =>
    if t.drawn floor then gatherAll floor (g.add t) nested else g

def gatherAll (floor : AccessFloor) (g : Gathered) : List TypeSymbol → Gathered
  | [] => g
  | t :: ts => gatherAll floor (gather floor g t) ts

end

end TypeSymbol

namespace NamespaceTree

mutual

def gather (floor : AccessFloor) (g : Gathered) : NamespaceTree → Gathered
  | ⟨_, types, children⟩ => gatherAll floor (TypeSymbol.gatherAll floor g types) children

def gatherAll (floor : AccessFloor) (g : Gathered) : List NamespaceTree → Gathered
  | [] => g
  | ns :: rest => gatherAll floor (gather floor g ns) rest

end

end NamespaceTree

namespace BuildUnit

def reason (unit : BuildUnit) : String :=
  if unit.diagnostics.isEmpty then "no semantic model available"
  else "; ".intercalate unit.diagnostics

def project (floor : AccessFloor) (unit : BuildUnit) : Except Failure Project :=
  match unit.symbols with
  | none => .error (.extraction unit.name unit.reason)
  | some symbols =>
    let g := symbols.gather floor .empty
    .ok ⟨unit.name, g.types, g.relations⟩

end BuildUnit

namespace Solution

def projectsOf (floor : AccessFloor) : List BuildUnit → Except Failure (List Project)
  | [] => .ok []
  | unit :: units =>
    match unit.project floor with
    | .error failure => .error failure
    | .ok project => (projectsOf floor units).map (project :: ·)

/-- The projects of all units, in order. One unit without symbols fails the whole. -/
def ofUnits (floor : AccessFloor) (units : List BuildUnit) : Except Failure Solution :=
  (projectsOf floor units).map Solution.mk

end Solution

end ClassDiagram
