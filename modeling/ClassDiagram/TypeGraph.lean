import ClassDiagram.Accessibility
import ClassDiagram.TypeKind

/-! The graph of types that a diagram is drawn from: declared types, directed relations
between their identifiers, and the projects that own them. A relation may lead to an
identifier that no project declares. -/

namespace ClassDiagram

structure DeclaredType where
  id : String
  name : String
  /-- Names with dots between them; empty for the global one. -/
  scope : String
  kind : TypeKind
  access : Accessibility
  isAbstract : Bool
  isSealed : Bool
  isStatic : Bool
  deriving DecidableEq

namespace DeclaredType

/-- Two parts of one type: the later part describes it, and a flag of either holds. -/
def merge (earlier later : DeclaredType) : DeclaredType :=
  { later with
    isAbstract := earlier.isAbstract || later.isAbstract
    isSealed := earlier.isSealed || later.isSealed
    isStatic := earlier.isStatic || later.isStatic }

theorem merge_id (earlier later : DeclaredType) : (merge earlier later).id = later.id := rfl

/-- What the box of a type is marked with. The kind goes before the modifiers of a class. -/
def stereotype (t : DeclaredType) : Option String :=
  match t.kind with
  | .interfaceType => some "Interface"
  | .structType => some "struct"
  | .enumType => some "Enumeration"
  | .delegateType => some "delegate"
  | .recordClass => some "record"
  | .recordStruct => some "record,struct"
  | .classType =>
    if t.isStatic then some "static"
    else if t.isAbstract then some "Abstract"
    else if t.isSealed then some "sealed"
    else none

end DeclaredType

inductive RelationKind where
  | inheritance
  | realization
  deriving DecidableEq

namespace RelationKind

def label : RelationKind → String
  | inheritance => "inheritance"
  | realization => "realization"

def rank : RelationKind → Nat
  | inheritance => 0
  | realization => 1

end RelationKind

structure Relation where
  source : String
  target : String
  kind : RelationKind
  deriving DecidableEq

namespace Relation

/-- Order by source, then target, then kind. -/
def before (a b : Relation) : Bool :=
  a.source < b.source ||
    (a.source == b.source &&
      (a.target < b.target || (a.target == b.target && a.kind.rank < b.kind.rank)))

def insert (r : Relation) : List Relation → List Relation
  | [] => [r]
  | x :: xs =>
    if r = x then x :: xs
    else if r.before x then r :: x :: xs
    else x :: insert r xs

theorem mem_insert (r x : Relation) (rs : List Relation) :
    x ∈ insert r rs ↔ x = r ∨ x ∈ rs := by
  induction rs with
  | nil => simp [insert]
  | cons y ys ih =>
    unfold insert
    by_cases h : r = y
    · subst h
      simp
    · rw [if_neg h]
      split
      · simp
      · simp only [List.mem_cons, ih]
        constructor <;> rintro (rfl | rfl | h) <;> simp_all

end Relation

structure Project where
  name : String
  types : List DeclaredType
  relations : List Relation

structure Solution where
  projects : List Project

namespace Solution

def types (s : Solution) : List DeclaredType := s.projects.flatMap Project.types

def relationCount (s : Solution) : Nat := (s.projects.flatMap Project.relations).length

end Solution

end ClassDiagram
