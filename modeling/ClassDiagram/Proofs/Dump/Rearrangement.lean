import ClassDiagram.Proofs.Diagram.Order
import ClassDiagram.Proofs.Dump.Parts
import Mathlib.Data.Multiset.Defs

/-! The order in which a dump declares things. Where no identifier is declared twice, it does
not reach the diagram: neither the order of types or references, nor that of nested types, nor
that of interfaces. A walk over the declarations gives the same entries and parts in another
order; the index answers the same up to the order of interfaces, so that the same interfaces
are realized; and the project has the same types and the very same list of relations. -/

namespace ClassDiagram

namespace TypeDecl

/-- Declarations in another order; in each of them, the interfaces and the nested declarations
may be in another order, too. -/
inductive Rearranged : List TypeDecl → List TypeDecl → Prop
  | nil : Rearranged [] []
  | cons (d : TypeDecl) {interfaces : List TypeRef} {nested ds ds' : List TypeDecl} :
      d.interfaces.Perm interfaces → Rearranged d.nested nested → Rearranged ds ds' →
      Rearranged (d :: ds) ({ d with interfaces, nested } :: ds')
  | swap (d d' : TypeDecl) (ds : List TypeDecl) : Rearranged (d :: d' :: ds) (d' :: d :: ds)
  | trans {ds ds' ds'' : List TypeDecl} :
      Rearranged ds ds' → Rearranged ds' ds'' → Rearranged ds ds''

/-- A step of a walk, from the nested declarations of a declaration to itself, does not depend
on the order of what is nested, nor on the order of interfaces. -/
def Orderless {α : Type} (walk : String → List String → TypeDecl → List α) : Prop :=
  ∀ (scope : String) (containing : List String) (d : TypeDecl) {interfaces : List TypeRef}
    {nested : List TypeDecl}, d.interfaces.Perm interfaces →
    (∀ around, (d.nested.flatMap (walk scope around)).Perm (nested.flatMap (walk scope around))) →
    (walk scope containing d).Perm (walk scope containing { d with interfaces, nested })

namespace Rearranged

theorem cons_same (d : TypeDecl) {ds ds' : List TypeDecl} (nested : Rearranged d.nested d.nested)
    (rest : Rearranged ds ds') : Rearranged (d :: ds) (d :: ds') := by
  have whole := cons d (List.Perm.refl d.interfaces) nested rest
  cases d
  exact whole

theorem refl (ds : List TypeDecl) : Rearranged ds ds := by
  match ds with
  | [] => exact .nil
  | ⟨_, _, _, _, _, _, _, _, _, _, _, _, nested⟩ :: ds =>
    exact cons_same _ (refl nested) (refl ds)

theorem symm {ds ds' : List TypeDecl} (rearranged : Rearranged ds ds') : Rearranged ds' ds := by
  induction rearranged with
  | nil => exact .nil
  | cons d interfaces _ _ nested rest =>
    cases d
    refine .cons _ ?_ ?_ rest
    · exact interfaces.symm
    · exact nested
  | swap d d' ds => exact .swap d' d ds
  | trans _ _ first second => exact second.trans first

theorem of_perm {ds ds' : List TypeDecl} (perm : ds.Perm ds') : Rearranged ds ds' := by
  induction perm with
  | nil => exact .nil
  | cons d _ ih => exact cons_same d (refl d.nested) ih
  | swap d d' ds => exact .swap d' d ds
  | trans _ _ first second => exact first.trans second

theorem flatMap_perm {α : Type} {walk : String → List String → TypeDecl → List α}
    (step : Orderless walk) {ds ds' : List TypeDecl} (rearranged : Rearranged ds ds')
    (place : String → String) (containing : List String) :
    (ds.flatMap fun d => walk (place d.scope) containing d).Perm
      (ds'.flatMap fun d => walk (place d.scope) containing d) := by
  -- Nested declarations are walked in the namespace around them, hence any `place`.
  induction rearranged generalizing place containing with
  | nil => exact .refl _
  | cons d interfaces _ _ nested rest =>
    rw [List.flatMap_cons, List.flatMap_cons]
    have own := step (place d.scope) containing d interfaces (nested fun _ => place d.scope)
    exact own.append (rest place containing)
  | swap d d' ds =>
    rw [List.flatMap_cons, List.flatMap_cons, List.flatMap_cons, List.flatMap_cons]
    exact List.perm_append_comm_assoc _ _ _
  | trans _ _ first second => exact (first place containing).trans (second place containing)

end Rearranged

end TypeDecl

def Part.view (p : Part) : DeclaredType × Option TypeRef × Multiset TypeRef :=
  (p.type, p.base, p.interfaces)

theorem Part.view_eq {p p' : Part} (same : p.view = p'.view) :
    p.type = p'.type ∧ p.base = p'.base ∧ p.interfaces.Perm p'.interfaces := by
  simpa only [view, Prod.mk.injEq, Multiset.coe_eq_coe] using same

namespace TypeDecl

theorem orderless_parts (floor : AccessFloor) :
    Orderless fun scope containing d => (d.parts floor scope containing).map Part.view := by
  intro scope containing d interfaces nested perm inner
  beta_reduce at inner ⊢
  have shown : ({ d with interfaces, nested } : TypeDecl).drawnIn floor containing =
      d.drawnIn floor containing := rfl
  rw [parts_eq, parts_eq, shown]
  split
  · rw [partsAll_eq, partsAll_eq, List.map_cons, List.map_cons, List.map_flatMap,
      List.map_flatMap]
    have own : (d.partIn scope containing).view =
        (({ d with interfaces, nested } : TypeDecl).partIn scope containing).view := by
      rw [Part.view, partIn, Multiset.coe_eq_coe.mpr perm]
      rfl
    rw [own]
    exact (inner _).cons _
  · exact .refl _

end TypeDecl

namespace Dump

def Entry.view (e : Entry) : String × Option TypeRef × Multiset TypeRef :=
  (e.id, e.base, e.interfaces)

theorem Entry.view_eq {e e' : Entry} (same : e.view = e'.view) :
    e.id = e'.id ∧ e.base = e'.base ∧ e.interfaces.Perm e'.interfaces := by
  simpa only [view, Prod.mk.injEq, Multiset.coe_eq_coe] using same

namespace Index

theorem ofType_eq (scope : String) (containing : List String) (d : TypeDecl) :
    ofType scope containing d =
      ⟨d.idIn scope containing, d.base, d.interfaces⟩ ::
        ofTypes scope (containing ++ [d.name]) d.nested := by
  cases d
  rw [ofType]

theorem ofTypes_eq (scope : String) (containing : List String) (ds : List TypeDecl) :
    ofTypes scope containing ds = ds.flatMap (ofType scope containing) := by
  induction ds with
  | nil => rfl
  | cons d ds ih => rw [ofTypes, ih, List.flatMap_cons]

theorem orderless_ofType :
    TypeDecl.Orderless fun scope containing d => (ofType scope containing d).map Entry.view := by
  intro scope containing d interfaces nested perm inner
  beta_reduce at inner ⊢
  rw [ofType_eq, ofType_eq, ofTypes_eq, ofTypes_eq, List.map_cons, List.map_cons,
    List.map_flatMap, List.map_flatMap]
  have own : Entry.view ⟨d.idIn scope containing, d.base, d.interfaces⟩ =
      Entry.view ⟨d.idIn scope containing, d.base, interfaces⟩ := by
    rw [Entry.view, Multiset.coe_eq_coe.mpr perm]
    rfl
  rw [own]
  exact (inner _).cons _

theorem ids_perm {index index' : Index}
    (same : (index.map Entry.view).Perm (index'.map Entry.view)) :
    (index.map Entry.id).Perm (index'.map Entry.id) := by
  have firsts := same.map Prod.fst
  rw [List.map_map, List.map_map] at firsts
  exact firsts

theorem within_of_perm {index index' : Index} (distinct : (index'.map Entry.id).Nodup)
    (same : (index.map Entry.view).Perm (index'.map Entry.view)) : index.Within index' := by
  intro id e known
  have self : e.id = id := by simpa using List.find?_some known
  have listed : e.view ∈ index'.map Entry.view :=
    same.mem_iff.mp (List.mem_map_of_mem (List.mem_of_find?_eq_some known))
  obtain ⟨e', present, alike⟩ := List.mem_map.mp listed
  obtain ⟨sameId, sameBase, interfaces⟩ := Entry.view_eq alike
  refine ⟨e', ?_, sameBase, interfaces.symm.subset⟩
  rw [← self, ← sameId]
  exact find?_of_mem distinct present

end Index

structure Rearranged (dump dump' : Dump) : Prop where
  name : dump.name = dump'.name
  types : TypeDecl.Rearranged dump.types dump'.types
  references : TypeDecl.Rearranged dump.references dump'.references

/-- No identifier is declared twice, references included. -/
def Distinct (dump : Dump) : Prop := ((Index.ofDump dump).map Entry.id).Nodup

theorem Distinct.parts {dump : Dump} (once : dump.Distinct) (floor : AccessFloor) :
    ((dump.parts floor).map Part.id).Nodup := by
  rw [Distinct, ofDump_eq, List.map_append] at once
  have ids := ((entries_parts_sublist floor dump).map Entry.id).nodup once.of_append_left
  rw [List.map_map] at ids
  exact ids

namespace Rearranged

variable {dump dump' : Dump}

theorem symm (same : dump.Rearranged dump') : dump'.Rearranged dump :=
  ⟨same.name.symm, same.types.symm, same.references.symm⟩

theorem entries_perm (same : dump.Rearranged dump') :
    ((Index.ofDump dump).map Entry.view).Perm ((Index.ofDump dump').map Entry.view) := by
  have types := same.types.flatMap_perm Index.orderless_ofType (fun scope => scope) []
  have references := same.references.flatMap_perm Index.orderless_ofType (fun scope => scope) []
  rw [Index.ofDump, Index.ofDump, List.flatMap_append, List.flatMap_append, List.map_append,
    List.map_append, List.map_flatMap, List.map_flatMap, List.map_flatMap, List.map_flatMap]
  exact types.append references

theorem parts_perm (same : dump.Rearranged dump') (floor : AccessFloor) :
    ((dump.parts floor).map Part.view).Perm ((dump'.parts floor).map Part.view) := by
  rw [parts, parts, List.map_flatMap, List.map_flatMap]
  exact same.types.flatMap_perm (TypeDecl.orderless_parts floor) (fun scope => scope) []

theorem distinct (same : dump.Rearranged dump') (once : dump.Distinct) : dump'.Distinct :=
  (Index.ids_perm same.entries_perm).nodup_iff.mp once

theorem part_of_part {floor : AccessFloor} (same : dump.Rearranged dump')
    (once : dump'.Distinct) {p : Part} (isPart : p ∈ dump.parts floor) :
    ∃ p' ∈ dump'.parts floor, p'.id = p.id ∧
      (∀ target, p.Inherits target → p'.Inherits target) ∧
      ∀ target, p.Realizes (Index.ofDump dump) target →
        p'.Realizes (Index.ofDump dump') target := by
  have listed : p.view ∈ (dump'.parts floor).map Part.view :=
    (same.parts_perm floor).mem_iff.mp (List.mem_map_of_mem isPart)
  obtain ⟨p', isPart', alike⟩ := List.mem_map.mp listed
  obtain ⟨type, base, interfaces⟩ := Part.view_eq alike
  have within : (Index.ofDump dump).Within (Index.ofDump dump') :=
    Index.within_of_perm once same.entries_perm
  refine ⟨p', isPart', congrArg DeclaredType.id type, ?_, ?_⟩
  · intro target inherits
    exact base.trans inherits
  · intro target realizes
    rw [Part.Realizes, base]
    exact realizes.mono within interfaces.symm.subset

theorem relations_subset {floor : AccessFloor} {path : Path} (same : dump.Rearranged dump')
    (once : dump'.Distinct) {r : Relation} (present : r ∈ (dump.project floor path).relations) :
    r ∈ (dump'.project floor path).relations := by
  rw [mem_project_relations] at present ⊢
  obtain ⟨p, isPart, own⟩ := present
  obtain ⟨p', isPart', id, inherits, realizes⟩ := same.part_of_part once isPart
  refine ⟨p', isPart', ?_⟩
  rw [id]
  rcases own with ⟨target, base, rfl⟩ | ⟨target, interface, rfl⟩
  · exact .inl ⟨target, inherits target base, rfl⟩
  · exact .inr ⟨target, realizes target interface, rfl⟩

theorem relations_eq (same : dump.Rearranged dump') (once : dump.Distinct) (floor : AccessFloor)
    (path : Path) :
    (dump.project floor path).relations = (dump'.project floor path).relations := by
  refine Relation.Increasing.eq_of_mem_iff (Gathered.relationsOf_increasing _)
    (Gathered.relationsOf_increasing _) ?_
  intro r
  constructor
  · exact same.relations_subset (same.distinct once)
  · exact same.symm.relations_subset once

theorem types_perm (same : dump.Rearranged dump') (once : dump.Distinct) (floor : AccessFloor)
    (path : Path) :
    (dump.project floor path).types.Perm (dump'.project floor path).types := by
  have types := (same.parts_perm floor).map Prod.fst
  rw [List.map_map, List.map_map] at types
  have first := project_types_perm (once.parts floor) path
  have second := project_types_perm ((same.distinct once).parts floor) path
  exact first.trans (types.trans second.symm)

end Rearranged

theorem ofUnits_unit (floor : AccessFloor) (path : Path) (dump : Dump) :
    Solution.ofUnits floor [dump.unit path] = .ok ⟨[dump.project floor path]⟩ := by
  rw [Solution.ofUnits, Solution.projectsOf, project_unit]
  rfl

/-- A dump that declares each identifier once has one diagram, in whatever order it declares
its types, its references, their nested types and their interfaces. -/
theorem text_eq_of_rearranged {dump dump' : Dump} (once : dump.Distinct)
    (same : dump.Rearranged dump') (floor : AccessFloor) (path : Path)
    (direction : Option Direction) :
    ∃ s s', Solution.ofUnits floor [dump.unit path] = .ok s ∧
      Solution.ofUnits floor [dump'.unit path] = .ok s' ∧
      Diagram.text s direction = Diagram.text s' direction := by
  refine ⟨_, _, ofUnits_unit floor path dump, ofUnits_unit floor path dump', ?_⟩
  have types : ∀ p : Project, Solution.types ⟨[p]⟩ = p.types := by
    intro p
    exact List.flatMap_singleton _ _
  have lines : Diagram.lines ⟨[dump.project floor path]⟩ direction =
      Diagram.lines ⟨[dump'.project floor path]⟩ direction := by
    refine Diagram.lines_eq_of_perm ?_ ?_ ?_ direction
    · rw [types]
      exact Gathered.nodup_ids_typesOf _
    · rw [types, types]
      exact same.types_perm once floor path
    · exact congrArg (fun rs => [rs]) (same.relations_eq once floor path)
  rw [Diagram.text, Diagram.text, lines]

def orderedDump : Dump :=
  ⟨none, [{ TypeDecl.bare "A" with
      interfaces := [.known "T:I", .known "T:J"]
      nested := [TypeDecl.bare "C", TypeDecl.bare "D"] },
    { TypeDecl.bare "B" with base := some (.known "T:A") }],
    [{ TypeDecl.bare "I" with interfaces := [.known "T:K"] }, TypeDecl.bare "J"]⟩

def reorderedDump : Dump :=
  ⟨none, [{ TypeDecl.bare "B" with base := some (.known "T:A") },
    { TypeDecl.bare "A" with
      interfaces := [.known "T:J", .known "T:I"]
      nested := [TypeDecl.bare "D", TypeDecl.bare "C"] }],
    [TypeDecl.bare "J", { TypeDecl.bare "I" with interfaces := [.known "T:K"] }]⟩

theorem text_reorderedDump :
    orderedDump.Distinct ∧ orderedDump.Rearranged reorderedDump ∧
      ∃ s s', Solution.ofUnits .pub [orderedDump.unit ⟨"Shop.symbols.json"⟩] = .ok s ∧
        Solution.ofUnits .pub [reorderedDump.unit ⟨"Shop.symbols.json"⟩] = .ok s' ∧
        Diagram.text s none = Diagram.text s' none := by
  have once : orderedDump.Distinct := by
    rw [Distinct]
    decide
  have same : orderedDump.Rearranged reorderedDump := by
    refine ⟨rfl, ?_, .of_perm (.swap _ _ _)⟩
    refine .trans (.swap _ _ _) ?_
    refine TypeDecl.Rearranged.cons_same _ (.refl _) ?_
    exact .cons { TypeDecl.bare "A" with interfaces := _, nested := _ } (.swap _ _ _)
      (.of_perm (.swap _ _ _)) .nil
  exact ⟨once, same, text_eq_of_rearranged once same .pub ⟨"Shop.symbols.json"⟩ none⟩

end Dump

end ClassDiagram
