import ClassDiagram.Proofs.Diagram.Reading
import ClassDiagram.Proofs.Dump.Rearrangement

/-! What a label tells of a type. It is made of the namespace and the name, and both can be read
off it. The types around and the number of generic parameters are in the identifier only, so types
of different identifiers have one label where they have one namespace and one name. -/

namespace ClassDiagram

theorem Text.trim_of_unblank {s : String} (unblank : Unblank s) : trim s = s := by
  have none : ∀ cs : List Char, (∀ c ∈ cs, isBlank c = false) → cs.dropWhile isBlank = cs := by
    intro cs unblank
    cases cs with
    | nil => rfl
    | cons c cs => simp [unblank c]
  have back : ∀ c ∈ s.toList.reverse, isBlank c = false :=
    fun c present => unblank c (List.mem_reverse.mp present)
  rw [trim, none _ unblank, dropBlankEnd, none _ back, List.reverse_reverse, String.ofList_toList]

namespace Label

/-- A namespace of plain identifiers, which is not spelled as the global one. -/
structure PlainScope (path : String) : Prop where
  unblank : Text.Unblank path
  notColon : ':' ∉ path.toList
  notQuote : '\x60' ∉ path.toList
  named : path ≠ globalScope

section

variable {path path' : String}

theorem escape_of_plain (plain : PlainScope path) : escape path = path := by
  have each : ∀ c ∈ path.toList, escapeChar c = [c] := by
    intro c present
    apply escapeChar_plain
    · exact fun quote => plain.notQuote (quote ▸ present)
    · exact fun colon => plain.notColon (colon ▸ present)
  rw [escape, List.flatMap_congr each]
  simp

theorem scope_of_plain (plain : PlainScope path) :
    scope path = if path = "" then globalScope else path := by
  rw [scope, Text.trim_of_unblank plain.unblank, escape_of_plain plain]

theorem colon_notMem_scope (plain : PlainScope path) : ':' ∉ (scope path).toList := by
  rw [scope_of_plain plain]
  split
  · decide
  · exact plain.notColon

theorem scope_inj (plain : PlainScope path) (plain' : PlainScope path') :
    scope path = scope path' ↔ path = path' := by
  have := plain.named
  have := plain'.named
  rw [scope_of_plain plain, scope_of_plain plain']
  split <;> split <;> simp_all [eq_comm]

end

theorem split_qualified {t : DeclaredType} (plain : PlainScope t.scope) :
    Text.split ':' (qualified t) = scope t.scope :: "" :: Text.split ':' t.name := by
  have colons : qualified t =
      scope t.scope ++ String.singleton ':' ++ ("" ++ String.singleton ':' ++ t.name) := by
    simp [qualified, ← String.toList_inj]
  rw [colons, Text.split_append, Text.split_append,
    Text.split_of_notMem (colon_notMem_scope plain), Text.split_of_notMem (by simp)]
  rfl

/-- The first colon of a label is behind the namespace, so a label tells where to cut it. -/
theorem qualified_inj {t u : DeclaredType} (plain : PlainScope t.scope)
    (plain' : PlainScope u.scope) :
    qualified t = qualified u ↔ t.scope = u.scope ∧ t.name = u.name := by
  constructor
  · intro same
    have pieces := congrArg (Text.split ':') same
    rw [split_qualified plain, split_qualified plain', List.cons.injEq, List.cons.injEq] at pieces
    obtain ⟨scopes, _, names⟩ := pieces
    refine ⟨(scope_inj plain plain').mp scopes, ?_⟩
    rw [← Text.intercalate_split ':' t.name, names, Text.intercalate_split]
  · rintro ⟨scopes, names⟩
    rw [qualified, qualified, scopes, names]

theorem dot_notMem_external (id : String) : '.' ∉ (external id).toList := by
  rw [external, escape, String.toList_ofList, List.mem_flatMap, String.toList_ofList]
  rintro ⟨c, present, made⟩
  have other : c ≠ '.' := by
    obtain ⟨d, _, rfl⟩ := List.mem_map.mp present
    split <;> simp_all
  unfold escapeChar at made
  split at made
  · cases made
  · simp at made
  · exact other (List.mem_singleton.mp made).symm

end Label

namespace Dump

/-- Where a declaration stands: in a namespace, and inside of other types. -/
inductive Stands (dump : Dump) (scope : String) : List String → TypeDecl → Prop
  | top {d : TypeDecl} : d ∈ dump.types → d.scope = scope → Stands dump scope [] d
  | nested {containing : List String} {outer d : TypeDecl} :
      Stands dump scope containing outer → d ∈ outer.nested →
      Stands dump scope (containing ++ [outer.name]) d

def Declares (dump : Dump) (containing : List String) (d : TypeDecl) (t : DeclaredType) : Prop :=
  dump.Stands t.scope containing d ∧ d.idIn t.scope containing = t.id ∧ d.name = t.name

end Dump

namespace TypeDecl

open Dump (Stands)

variable {dump : Dump} {floor : AccessFloor} {scope : String} {p : Part}

mutual

theorem stands_of_mem_parts {containing : List String} {d : TypeDecl}
    (stands : dump.Stands scope containing d) (isPart : p ∈ d.parts floor scope containing) :
    ∃ containing' d', dump.Stands scope containing' d' ∧ p = d'.partIn scope containing' := by
  match d with
  | ⟨name, scope', id, arity, kind, access, isAbstract, isSealed, isStatic, inSource, base,
      interfaces, nested⟩ =>
    rw [parts_eq] at isPart
    split at isPart
    · rcases List.mem_cons.mp isPart with own | inside
      · exact ⟨containing, _, stands, own⟩
      · exact stands_of_mem_partsAll (fun d present => .nested stands present) inside
    · cases isPart

theorem stands_of_mem_partsAll {containing : List String} {ds : List TypeDecl}
    (stands : ∀ d ∈ ds, dump.Stands scope containing d)
    (isPart : p ∈ partsAll floor scope containing ds) :
    ∃ containing' d', dump.Stands scope containing' d' ∧ p = d'.partIn scope containing' := by
  match ds with
  | [] => cases isPart
  | d :: ds =>
    rw [partsAll, List.mem_append] at isPart
    rcases isPart with first | later
    · exact stands_of_mem_parts (stands d List.mem_cons_self) first
    · exact stands_of_mem_partsAll (fun d present => stands d (List.mem_cons_of_mem _ present)) later

end

end TypeDecl

namespace Dump

/-- The namespaces of a dump are plain. That of a nested type is the one around it. -/
def Plain (dump : Dump) : Prop := ∀ d ∈ dump.types, Label.PlainScope d.scope

section

variable {floor : AccessFloor} {dump : Dump} {scope : String}

theorem Stands.plain {containing : List String} {d : TypeDecl}
    (stands : dump.Stands scope containing d) (plain : dump.Plain) : Label.PlainScope scope := by
  induction stands with
  | top present here => exact here ▸ plain _ present
  | nested _ _ ih => exact ih

theorem declares_of_part {p : Part} (isPart : p ∈ dump.parts floor) :
    ∃ containing d, dump.Declares containing d p.type := by
  obtain ⟨top, present, isPart⟩ := List.mem_flatMap.mp isPart
  obtain ⟨containing, d, stands, rfl⟩ :=
    TypeDecl.stands_of_mem_parts (.top present rfl) isPart
  exact ⟨containing, d, stands, rfl, rfl⟩

theorem declares_of_type {path : Path} {t : DeclaredType}
    (present : t ∈ (dump.project floor path).types) :
    ∃ containing d, dump.Declares containing d t := by
  -- The last of the merged parts describes the type.
  obtain ⟨last, ends, whole⟩ := Gathered.eq_of_mem_typesOf present
  have drawn : last ∈ dump.drawnSymbols floor := by
    have listed := List.mem_of_getLast? ends
    rw [Gathered.partsOf, List.mem_filter] at listed
    exact listed.1
  have listed := (parts_drawnSymbols floor dump).mem_iff.mp (List.mem_map_of_mem drawn)
  obtain ⟨p, isPart, same⟩ := List.mem_map.mp listed
  have type : last.declared = p.type := congrArg Part.type same.symm
  rw [whole, type]
  exact declares_of_part isPart

theorem apart_of_id_ne {dump' : Dump} {t u : DeclaredType} {containing containing' : List String}
    {d d' : TypeDecl} (first : dump.Declares containing d t)
    (second : dump'.Declares containing' d' u) (scopes : t.scope = u.scope)
    (names : t.name = u.name) (other : t.id ≠ u.id) :
    containing ≠ containing' ∨ d.arity ≠ d'.arity ∨ d.id.isSome ∨ d'.id.isSome := by
  obtain ⟨_, id, name⟩ := first
  obtain ⟨_, id', name'⟩ := second
  by_contra alike
  push Not at alike
  obtain ⟨around, arity, own, own'⟩ := alike
  have own : d.id = none := by simpa using own
  have own' : d'.id = none := by simpa using own'
  refine other ?_
  rw [← id, ← id', TypeDecl.idIn, TypeDecl.idIn, own, own', around, arity, name, name', scopes,
    names]

end

end Dump

namespace Diagram

/-- Two identifiers are declared with one namespace and one name. -/
def SameName (types : List DeclaredType) (id id' : String) : Prop :=
  ∃ t u, lookup id types = some t ∧ lookup id' types = some u ∧ t.scope = u.scope ∧
    t.name = u.name

section Lines

variable (s : Solution) (direction : Option Direction)

theorem member_mem_lines (label : String) (mark : Option String) :
    .member label mark ∈ lines s direction ↔
      ∃ t ∈ firsts s.types, label = Label.qualified t ∧ mark = t.stereotype := by
  have noEdge : .member label mark ∉ s.projects.flatMap (edges (firsts s.types)) := by
    simp [edges, edge]
  have inBlock : ∀ scope, .member label mark ∈ block (firsts s.types) scope ↔
      ∃ t ∈ members (firsts s.types) scope, label = Label.qualified t ∧ mark = t.stereotype := by
    simp [block, eq_comm]
  rw [lines, List.mem_append, or_iff_left noEdge, List.mem_append, List.mem_flatMap]
  simp only [inBlock, mem_scopes, mem_members]
  constructor
  · rintro (other | ⟨_, _, t, ⟨first, _⟩, drawn⟩)
    · simp at other
    · exact ⟨t, first, drawn⟩
  · rintro ⟨t, first, drawn⟩
    exact .inr ⟨t.scope, ⟨t, first, rfl⟩, t, ⟨first, rfl⟩, drawn⟩

theorem edge_mem_lines (source : String) (kind : RelationKind) (target : String) :
    .edge source kind target ∈ lines s direction ↔
      ∃ r ∈ s.projects.flatMap Project.relations,
        edge (firsts s.types) r = some (.edge source kind target) := by
  have noBlock : .edge source kind target ∉
      [.header] ++ (direction.map Line.direction).toList ++
        (scopes (firsts s.types)).flatMap (block (firsts s.types)) := by
    simp [block]
  rw [lines, List.mem_append, or_iff_right noBlock]
  simp only [edges, List.mem_flatMap, List.mem_filterMap, List.mem_mergeSort]
  constructor
  · rintro ⟨p, isProject, r, own, drawn⟩
    exact ⟨r, ⟨p, isProject, own⟩, drawn⟩
  · rintro ⟨r, ⟨p, isProject, own⟩, drawn⟩
    exact ⟨p, isProject, r, own, drawn⟩

end Lines

def labelOf (types : List DeclaredType) (id : String) : String :=
  match lookup id types with
  | some t => Label.qualified t
  | none => Label.external id

theorem labelOf_of_some {types : List DeclaredType} {id : String} {t : DeclaredType}
    (found : lookup id types = some t) : labelOf types id = Label.qualified t := by
  rw [labelOf, found]

theorem labelOf_of_none {types : List DeclaredType} {id : String}
    (missing : lookup id types = none) : labelOf types id = Label.external id := by
  rw [labelOf, missing]

theorem edge_eq_some_iff {types : List DeclaredType} {r : Relation} {line : Line} :
    edge (firsts types) r = some line ↔
      ∃ source, lookup r.source types = some source ∧
        line = .edge (Label.qualified source) r.kind (labelOf types r.target) := by
  rw [edge, lookup_firsts, lookup_firsts, Option.map_eq_some_iff]
  simp only [eq_comm (b := line)]
  rfl

theorem mem_firsts_of_lookup {types : List DeclaredType} {id : String} {t : DeclaredType}
    (found : lookup id types = some t) : t ∈ firsts types :=
  mem_firsts.mpr (lookup_eq_some_iff.mp found).1

section Plain

variable {types : List DeclaredType} (plain : ∀ t ∈ firsts types, Label.PlainScope t.scope)

include plain

theorem sameName_of_label {id id' : String} {t u : DeclaredType} (found : lookup id types = some t)
    (found' : lookup id' types = some u) (same : Label.qualified t = Label.qualified u) :
    SameName types id id' := by
  have scope := plain t (mem_firsts_of_lookup found)
  have scope' := plain u (mem_firsts_of_lookup found')
  exact ⟨t, u, found, found', (Label.qualified_inj scope scope').mp same⟩

variable {r r' : Relation} {line : Line} (drawn : edge (firsts types) r = some line)
  (drawn' : edge (firsts types) r' = some line)

include drawn drawn'

theorem sameName_source : SameName types r.source r'.source := by
  obtain ⟨t, found, rfl⟩ := edge_eq_some_iff.mp drawn
  obtain ⟨u, found', same⟩ := edge_eq_some_iff.mp drawn'
  injection same with same
  exact sameName_of_label plain found found' same

theorem sameName_target {t : DeclaredType} (found : lookup r.target types = some t) :
    SameName types r.target r'.target ∨
      lookup r'.target types = none ∧ '.' ∉ (Label.qualified t).toList := by
  obtain ⟨_, _, rfl⟩ := edge_eq_some_iff.mp drawn
  obtain ⟨_, _, same⟩ := edge_eq_some_iff.mp drawn'
  injection same with _ _ same
  rw [labelOf_of_some found] at same
  cases found' : lookup r'.target types with
  | some u =>
    rw [labelOf_of_some found'] at same
    exact .inl (sameName_of_label plain found found' same)
  | none =>
    rw [labelOf_of_none found'] at same
    exact .inr ⟨rfl, same ▸ Label.dot_notMem_external _⟩

end Plain

/-- What the labels of a diagram of dumps tell of the declared types. -/
structure LabelsTell (sources : List (Path × Dump)) (s : Solution) : Prop where
  equal : ∀ t ∈ firsts s.types, ∀ u ∈ firsts s.types,
    Label.qualified t = Label.qualified u ↔ t.scope = u.scope ∧ t.name = u.name
  /-- Two identifiers with one label differ in the types around them, in the number of generic
  parameters, or because one of them is written out. -/
  apart : ∀ t ∈ firsts s.types, ∀ u ∈ firsts s.types, t.id ≠ u.id →
    Label.qualified t = Label.qualified u →
    ∃ source ∈ sources, ∃ source' ∈ sources, ∃ around around' d d',
      source.2.Declares around d t ∧ source'.2.Declares around' d' u ∧
        (around ≠ around' ∨ d.arity ≠ d'.arity ∨ d.id.isSome ∨ d'.id.isSome)
  /-- Relations with one line start from types of one namespace and name. -/
  starts : ∀ r r' line, edge (firsts s.types) r = some line →
    edge (firsts s.types) r' = some line → SameName s.types r.source r'.source
  /-- If such a line leads to a declared type, each of the relations leads to a type of that
  namespace and name, unless an identifier that is not declared is spelled like the label. -/
  leads : ∀ r r' line t, edge (firsts s.types) r = some line →
    edge (firsts s.types) r' = some line → lookup r.target s.types = some t →
    SameName s.types r.target r'.target ∨
      lookup r'.target s.types = none ∧ '.' ∉ (Label.qualified t).toList

end Diagram

namespace Dump

open Diagram (firsts lookup edge LabelsTell)

theorem ofUnits_units (floor : AccessFloor) (sources : List (Path × Dump)) :
    Solution.ofUnits floor (sources.map fun source => source.2.unit source.1) =
      .ok ⟨sources.map fun source => source.2.project floor source.1⟩ := by
  have projects : Solution.projectsOf floor (sources.map fun source => source.2.unit source.1) =
      .ok (sources.map fun source => source.2.project floor source.1) := by
    induction sources with
    | nil => rfl
    | cons source sources ih =>
      rw [List.map_cons, Solution.projectsOf, project_unit, ih]
      rfl
  rw [Solution.ofUnits, projects]
  rfl

theorem declares_of_first {floor : AccessFloor} {sources : List (Path × Dump)}
    {t : DeclaredType}
    (first : t ∈ firsts (Solution.types
      ⟨sources.map fun source => source.2.project floor source.1⟩)) :
    ∃ source ∈ sources, ∃ containing d, source.2.Declares containing d t := by
  have present : t ∈ Solution.types
      ⟨sources.map fun source => source.2.project floor source.1⟩ := by
    obtain ⟨_, _, whole, _⟩ := Diagram.mem_firsts.mp first
    simp [whole]
  rw [Solution.types, List.flatMap_map, List.mem_flatMap] at present
  obtain ⟨source, listed, present⟩ := present
  exact ⟨source, listed, declares_of_type present⟩

def twins : Dump :=
  ⟨none, [{ TypeDecl.bare "Box" with scope := "Shop" },
    { TypeDecl.bare "Box" with scope := "Shop", arity := 1, base := some (.known "T:Shop.Box") }],
    []⟩

theorem plain_twins : twins.Plain := by
  have plain : Label.PlainScope "Shop" := ⟨by decide, by decide, by decide, by decide⟩
  intro d present
  rcases List.mem_cons.mp present with rfl | later
  · exact plain
  · obtain rfl := List.mem_singleton.mp later
    exact plain

end Dump

end ClassDiagram
