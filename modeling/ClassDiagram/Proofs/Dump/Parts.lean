import ClassDiagram.Dump.Unit
import ClassDiagram.Proofs.Dump.Closure
import ClassDiagram.Proofs.Extraction.Namespaces
import ClassDiagram.Proofs.Extraction.Relations

/-! The project of a symbol dump, read off its declarations. A part is what one declaration
says of a type. Each part that is drawn gives a declared type, an inheritance to its base, and
a realization of every interface that it realizes by the index of the dump. -/

namespace ClassDiagram

/-- What one declaration says of a type, without the types that are nested in it. -/
structure Part where
  type : DeclaredType
  base : Option TypeRef
  interfaces : List TypeRef

namespace Part

def id (p : Part) : String := p.type.id

def entry (p : Part) : Dump.Entry := ⟨p.id, p.base, p.interfaces⟩

def Inherits (p : Part) (target : String) : Prop := p.base = some ⟨some target, false⟩

/-- The part has an interface in the end, though it need not declare it. -/
def Realizes (index : Dump.Index) (p : Part) (target : String) : Prop :=
  Dump.Realized index p.base p.interfaces target

def closed (index : Dump.Index) (p : Part) : Part :=
  { p with interfaces := Dump.allInterfaces index p.base p.interfaces }

end Part

namespace TypeSymbol

def part (t : TypeSymbol) : Part := ⟨t.declared, t.base, t.interfaces⟩

theorem inherits_iff (t : TypeSymbol) (target : String) :
    t.Inherits target ↔ t.part.Inherits target := by
  constructor
  · rintro ⟨⟨_, _⟩, hasBase, rfl, rfl⟩
    exact hasBase
  · intro hasBase
    exact ⟨_, hasBase, rfl, rfl⟩

theorem mem_relations_of_part {t : TypeSymbol} {index : Dump.Index} {p : Part}
    (same : t.part = p.closed index) (r : Relation) :
    r ∈ t.relations ↔
      (∃ target, p.Inherits target ∧ r = ⟨p.id, target, .inheritance⟩) ∨
        ∃ target, p.Realizes index target ∧ r = ⟨p.id, target, .realization⟩ := by
  have id : t.id = p.id := congrArg Part.id same
  have inherits : ∀ target, t.Inherits target ↔ p.Inherits target := by
    intro target
    rw [inherits_iff, same]
    rfl
  have realizes : ∀ target, t.Realizes target ↔ p.Realizes index target := by
    intro target
    have interfaces : t.interfaces = Dump.allInterfaces index p.base p.interfaces :=
      congrArg Part.interfaces same
    rw [Realizes, interfaces, Dump.mem_allInterfaces]
    rfl
  simp only [mem_relations, id, inherits, realizes]

end TypeSymbol

namespace TypeDecl

def bare (name : String) : TypeDecl where
  name := name
  scope := ""
  id := none
  arity := 0
  kind := .classType
  access := some .pub
  isAbstract := false
  isSealed := false
  isStatic := false
  inSource := true
  base := none
  interfaces := []
  nested := []

open Dump (Index)
open Occurrence (drawnOf drawnOf_append)
open TypeSymbol (occurrences occurrencesAll drawnOf_occurrences)

def accessIn (containing : List String) (d : TypeDecl) : Accessibility :=
  d.access.getD (defaultAccess containing)

def drawnIn (floor : AccessFloor) (containing : List String) (d : TypeDecl) : Bool :=
  d.inSource && floor.admits (d.accessIn containing)

def partIn (scope : String) (containing : List String) (d : TypeDecl) : Part where
  type := ⟨d.idIn scope containing, d.name, scope, d.kind, d.accessIn containing, d.isAbstract,
    d.isSealed, d.isStatic⟩
  base := d.base
  interfaces := d.interfaces

mutual

/-- The parts of a declaration and of those in it, as far as they are drawn. -/
def parts (floor : AccessFloor) (scope : String) (containing : List String) :
    TypeDecl → List Part
  | d@⟨name, _, _, _, _, _, _, _, _, _, _, _, nested⟩ =>
    if d.drawnIn floor containing then
      d.partIn scope containing :: partsAll floor scope (containing ++ [name]) nested
    else []

def partsAll (floor : AccessFloor) (scope : String) (containing : List String) :
    List TypeDecl → List Part
  | [] => []
  | d :: ds => parts floor scope containing d ++ partsAll floor scope containing ds

end

theorem parts_eq (floor : AccessFloor) (scope : String) (containing : List String)
    (d : TypeDecl) :
    d.parts floor scope containing =
      if d.drawnIn floor containing then
        d.partIn scope containing :: partsAll floor scope (containing ++ [d.name]) d.nested
      else [] := by
  cases d
  rw [parts]

theorem partsAll_eq (floor : AccessFloor) (scope : String) (containing : List String)
    (ds : List TypeDecl) :
    partsAll floor scope containing ds = ds.flatMap (parts floor scope containing) := by
  induction ds with
  | nil => rfl
  | cons d ds ih => rw [partsAll, ih, List.flatMap_cons]

section Symbol

variable (index : Index) (scope : String) (containing : List String) (d : TypeDecl)

theorem symbol_drawn (floor : AccessFloor) :
    (d.symbol index scope containing).drawn floor = d.drawnIn floor containing := by
  cases d
  rw [symbol]
  rfl

theorem symbol_part :
    (d.symbol index scope containing).part = (d.partIn scope containing).closed index := by
  cases d
  rw [symbol]
  rfl

theorem symbol_docId :
    (d.symbol index scope containing).docId = some (d.idIn scope containing) := by
  cases d
  rw [symbol]

theorem symbol_nested :
    (d.symbol index scope containing).nested =
      symbols index scope (containing ++ [d.name]) d.nested := by
  cases d
  rw [symbol]

end Symbol

mutual

theorem parts_symbol {floor : AccessFloor} {around : List TypeSymbol}
    (shown : around.all (TypeSymbol.drawn floor) = true) (index : Index) (scope : String)
    (containing : List String) (d : TypeDecl) :
    (drawnOf floor ((d.symbol index scope containing).occurrences around)).map TypeSymbol.part =
      (d.parts floor scope containing).map (Part.closed index) := by
  match d with
  | ⟨name, scope', id, arity, kind, access, isAbstract, isSealed, isStatic, inSource, base,
      interfaces, nested⟩ =>
    rw [drawnOf_occurrences shown, symbol_drawn, parts_eq, symbol_nested]
    split
    next self =>
      rw [List.map_cons, List.map_cons, symbol_part]
      congr 1
      exact parts_symbols (by simpa [symbol_drawn, self] using shown) index scope _ nested
    next => rfl

theorem parts_symbols {floor : AccessFloor} {around : List TypeSymbol}
    (shown : around.all (TypeSymbol.drawn floor) = true) (index : Index) (scope : String)
    (containing : List String) (ds : List TypeDecl) :
    (drawnOf floor (occurrencesAll around (symbols index scope containing ds))).map
        TypeSymbol.part =
      (partsAll floor scope containing ds).map (Part.closed index) := by
  match ds with
  | [] => rfl
  | d :: ds =>
    rw [symbols, occurrencesAll, drawnOf_append, List.map_append, partsAll, List.map_append,
      parts_symbol shown index scope containing d, parts_symbols shown index scope containing ds]

end

mutual

theorem entries_sublist (floor : AccessFloor) (scope : String) (containing : List String)
    (d : TypeDecl) :
    ((d.parts floor scope containing).map Part.entry).Sublist (Index.ofType scope containing d) := by
  match d with
  | ⟨name, scope', id, arity, kind, access, isAbstract, isSealed, isStatic, inSource, base,
      interfaces, nested⟩ =>
    rw [parts_eq, Index.ofType]
    split
    · exact (entriesAll_sublist floor scope (containing ++ [name]) nested).cons_cons _
    · exact List.nil_sublist _

theorem entriesAll_sublist (floor : AccessFloor) (scope : String) (containing : List String)
    (ds : List TypeDecl) :
    ((partsAll floor scope containing ds).map Part.entry).Sublist
      (Index.ofTypes scope containing ds) := by
  match ds with
  | [] => exact List.nil_sublist _
  | d :: ds =>
    rw [partsAll, List.map_append, Index.ofTypes]
    exact (entries_sublist floor scope containing d).append
      (entriesAll_sublist floor scope containing ds)

end

end TypeDecl

namespace Dump

def parts (floor : AccessFloor) (dump : Dump) : List Part :=
  dump.types.flatMap fun d => d.parts floor d.scope []

def declared (dump : Dump) : Index := dump.types.flatMap fun d => Index.ofType d.scope [] d

theorem entries_parts_sublist (floor : AccessFloor) (dump : Dump) :
    ((dump.parts floor).map Part.entry).Sublist dump.declared := by
  rw [parts, declared, List.map_flatMap]
  induction dump.types with
  | nil => exact List.nil_sublist _
  | cons d ds ih =>
    rw [List.flatMap_cons, List.flatMap_cons]
    exact (TypeDecl.entries_sublist floor d.scope [] d).append ih

theorem ofDump_eq (dump : Dump) :
    Index.ofDump dump =
      dump.declared ++ dump.references.flatMap fun d => Index.ofType d.scope [] d :=
  List.flatMap_append

def drawnSymbols (floor : AccessFloor) (dump : Dump) : List TypeSymbol :=
  dump.namespaces.drawnSymbols floor

theorem parts_drawnSymbols (floor : AccessFloor) (dump : Dump) :
    ((dump.drawnSymbols floor).map TypeSymbol.part).Perm
      ((dump.parts floor).map (Part.closed (Index.ofDump dump))) := by
  have placed := NamespaceTree.occurrences_foldl_add TypeDecl.scope
    (fun d => d.symbol (Index.ofDump dump) d.scope []) dump.types (.empty "")
  rw [NamespaceTree.occurrences_empty, List.nil_append] at placed
  refine ((Occurrence.drawnOf_perm floor placed).map TypeSymbol.part).trans (List.Perm.of_eq ?_)
  rw [parts, List.map_flatMap, Occurrence.drawnOf, List.filter_flatMap, List.map_flatMap,
    List.map_flatMap]
  congr 1
  funext d
  exact TypeDecl.parts_symbol rfl (Index.ofDump dump) d.scope [] d

def project (floor : AccessFloor) (path : Path) (dump : Dump) : Project :=
  ⟨dump.name.getD (Descriptor.unitName path), Gathered.typesOf (dump.drawnSymbols floor),
    Gathered.relationsOf (dump.drawnSymbols floor)⟩

theorem mem_project_relations (floor : AccessFloor) (path : Path) (dump : Dump) (r : Relation) :
    r ∈ (dump.project floor path).relations ↔
      ∃ p ∈ dump.parts floor,
        (∃ target, p.Inherits target ∧ r = ⟨p.id, target, .inheritance⟩) ∨
          ∃ target, p.Realizes (Index.ofDump dump) target ∧
            r = ⟨p.id, target, .realization⟩ := by
  have drawn := parts_drawnSymbols floor dump
  rw [project, Gathered.mem_relationsOf]
  constructor
  · rintro ⟨t, present, own⟩
    have listed := drawn.mem_iff.mp (List.mem_map_of_mem present)
    obtain ⟨p, isPart, same⟩ := List.mem_map.mp listed
    exact ⟨p, isPart, (TypeSymbol.mem_relations_of_part same.symm r).mp own⟩
  · rintro ⟨p, isPart, own⟩
    have listed := drawn.mem_iff.mpr (List.mem_map_of_mem isPart)
    obtain ⟨t, present, same⟩ := List.mem_map.mp listed
    exact ⟨t, present, (TypeSymbol.mem_relations_of_part same r).mpr own⟩

theorem project_types_perm {floor : AccessFloor} {dump : Dump}
    (distinct : ((dump.parts floor).map Part.id).Nodup) (path : Path) :
    (dump.project floor path).types.Perm ((dump.parts floor).map Part.type) := by
  have types : ((dump.drawnSymbols floor).map TypeSymbol.declared).Perm
      ((dump.parts floor).map Part.type) := by
    have drawn := (parts_drawnSymbols floor dump).map Part.type
    rw [List.map_map, List.map_map] at drawn
    exact drawn
  have ids : ((dump.drawnSymbols floor).map TypeSymbol.id).Nodup := by
    have same := types.map DeclaredType.id
    rw [List.map_map, List.map_map] at same
    exact same.nodup_iff.mpr distinct
  rw [project, Gathered.typesOf_of_nodup ids]
  exact types

theorem project_unit (floor : AccessFloor) (path : Path) (dump : Dump) :
    (dump.unit path).project floor = .ok (dump.project floor path) :=
  BuildUnit.project_eq rfl floor

end Dump

end ClassDiagram
