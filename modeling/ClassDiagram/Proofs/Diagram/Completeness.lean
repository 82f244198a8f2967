import ClassDiagram.Proofs.Diagram.Order
import ClassDiagram.Proofs.Extraction.Relations
import Mathlib.Data.List.Forall2

/-! A diagram shows all of a solution that was built from units, and nothing else. Each declared
identifier is shown once, as its first declaration has it, in the block of that declaration's
namespace. Each relation is one edge: it starts at a type of its own project, so none is left
out, and the relations of a project are in order before they are sorted by source. -/

namespace ClassDiagram

namespace Diagram

/-- A declaration before which its identifier is not declared. -/
def First (types : List DeclaredType) (t : DeclaredType) : Prop :=
  ∃ earlier later, types = earlier ++ t :: later ∧ ∀ other ∈ earlier, other.id ≠ t.id

theorem lookup_eq_some_iff {types : List DeclaredType} {id : String} {t : DeclaredType} :
    lookup id types = some t ↔ First types t ∧ t.id = id := by
  rw [lookup, List.find?_eq_some_iff_append, First, decide_eq_true_eq]
  constructor
  · rintro ⟨rfl, earlier, later, split, others⟩
    exact ⟨⟨earlier, later, split, by simpa using others⟩, rfl⟩
  · rintro ⟨⟨earlier, later, split, others⟩, rfl⟩
    exact ⟨rfl, earlier, later, split, by simpa using others⟩

theorem lookup_eq_none_iff {types : List DeclaredType} {id : String} :
    lookup id types = none ↔ id ∉ types.map DeclaredType.id := by
  simp [lookup]

theorem lookup_cons (x : DeclaredType) (xs : List DeclaredType) (id : String) :
    lookup id (x :: xs) = if x.id = id then some x else lookup id xs := by
  by_cases here : x.id = id <;> simp [lookup, here]

theorem mem_firsts_iff_lookup {types : List DeclaredType} {t : DeclaredType} :
    t ∈ firsts types ↔ lookup t.id types = some t := by
  induction types with
  | nil => simp [firsts, lookup]
  | cons x xs ih =>
    rw [firsts, List.mem_cons, List.mem_filter, lookup_cons, ih, decide_eq_true_eq]
    by_cases same : x.id = t.id
    · simp [same, eq_comm]
    · have other : t ≠ x := fun equal => same (equal ▸ rfl)
      simp [same, other, Ne.symm same]

theorem mem_firsts {types : List DeclaredType} {t : DeclaredType} :
    t ∈ firsts types ↔ First types t := by
  rw [mem_firsts_iff_lookup, lookup_eq_some_iff]
  exact and_iff_left rfl

theorem nodup_ids_firsts (types : List DeclaredType) :
    ((firsts types).map DeclaredType.id).Nodup := by
  induction types with
  | nil => exact List.nodup_nil
  | cons x xs ih =>
    rw [firsts, List.map_cons, List.nodup_cons]
    refine ⟨?_, (List.filter_sublist.map _).nodup ih⟩
    simp

theorem lookup_firsts (types : List DeclaredType) (id : String) :
    lookup id (firsts types) = lookup id types := by
  cases found : lookup id types with
  | none =>
    refine lookup_eq_none_iff.mpr fun listed => lookup_eq_none_iff.mp found ?_
    obtain ⟨t, first, rfl⟩ := List.mem_map.mp listed
    obtain ⟨_, _, rfl, _⟩ := mem_firsts.mp first
    simp
  | some t =>
    obtain ⟨first, rfl⟩ := lookup_eq_some_iff.mp found
    exact Gathered.lookup_of_mem (nodup_ids_firsts types) (mem_firsts.mpr first)

theorem mem_ids_firsts {types : List DeclaredType} {id : String} :
    id ∈ (firsts types).map DeclaredType.id ↔ id ∈ types.map DeclaredType.id := by
  rw [← not_iff_not, ← lookup_eq_none_iff, ← lookup_eq_none_iff, lookup_firsts]

section Blocks

variable (types : List DeclaredType)

theorem mem_scopes {scope : String} : scope ∈ scopes types ↔ ∃ t ∈ types, t.scope = scope := by
  rw [scopes, List.mem_mergeSort, List.mem_eraseDups, List.mem_map]

theorem scopes_increasing : (scopes types).Pairwise (· < ·) := by
  have sorted : (scopes types).Pairwise fun a b => decide (a ≤ b) = true :=
    List.pairwise_mergeSort (by simpa using fun _ _ _ => le_trans) (by simp [le_total]) _
  have once : (scopes types).Nodup :=
    (List.mergeSort_perm _ _).nodup_iff.mpr (nodup_eraseDups _)
  refine (sorted.and once).imp ?_
  rintro a b ⟨less, other⟩
  exact lt_of_le_of_ne (of_decide_eq_true less) other

theorem mem_members {scope : String} {t : DeclaredType} :
    t ∈ members types scope ↔ t ∈ types ∧ t.scope = scope := by
  rw [members, List.mem_mergeSort, List.mem_filter, decide_eq_true_eq]

theorem members_increasing {types : List DeclaredType}
    (once : (types.map DeclaredType.id).Nodup) (scope : String) :
    (members types scope).Pairwise fun a b => memberKey a < memberKey b := by
  have transitive : ∀ a b c, memberOrder a b = true → memberOrder b c = true →
      memberOrder a c = true := by
    simp only [memberOrder_iff]
    exact fun _ _ _ => le_trans
  have total : ∀ a b, (memberOrder a b || memberOrder b a) = true := by
    simp only [Bool.or_eq_true, memberOrder_iff]
    exact fun _ _ => le_total _ _
  have sorted : (members types scope).Pairwise fun a b => memberOrder a b = true :=
    List.pairwise_mergeSort transitive total _
  have ids : (members types scope).Pairwise fun a b => a.id ≠ b.id := by
    have perm : (members types scope).Perm (types.filter fun t => t.scope = scope) :=
      List.mergeSort_perm _ _
    have apart := ((List.filter_sublist (p := fun t => t.scope = scope)).map
      DeclaredType.id).nodup once
    exact List.pairwise_map.mp ((perm.map DeclaredType.id).nodup_iff.mpr apart)
  refine (sorted.and ids).imp ?_
  rintro a b ⟨less, other⟩
  refine lt_of_le_of_ne ((memberOrder_iff a b).mp less) fun same => other ?_
  rw [memberKey, memberKey, toLex_inj, Prod.mk.injEq] at same
  exact same.2

end Blocks

/-- The label of an identifier: the qualified name of its first declaration, or the external
label when it is not declared. -/
def Labelled (types : List DeclaredType) (id label : String) : Prop :=
  (∃ t, First types t ∧ t.id = id ∧ label = Label.qualified t) ∨
    id ∉ types.map DeclaredType.id ∧ label = Label.external id

/-- The line of a relation whose source is declared. -/
def Shown (types : List DeclaredType) (r : Relation) (line : Line) : Prop :=
  ∃ source target, First types source ∧ source.id = r.source ∧
    Labelled types r.target target ∧ line = .edge (Label.qualified source) r.kind target

def Printed (types : List DeclaredType) (r : Relation) (text : String) : Prop :=
  ∃ source target, First types source ∧ source.id = r.source ∧ Labelled types r.target target ∧
    text = match r.kind with
      | .inheritance => Label.qualified source ++ " <|-- " ++ target
      | .realization => Label.qualified source ++ " ..|> " ++ target

theorem Shown.printed {types : List DeclaredType} {r : Relation} {line : Line}
    (shown : Shown types r line) : Printed types r line.text := by
  obtain ⟨source, target, first, id, labelled, rfl⟩ := shown
  refine ⟨source, target, first, id, labelled, ?_⟩
  cases r.kind <;> simp [Line.text, glyph, String.append_assoc]

theorem edge_shown {types : List DeclaredType} {r : Relation}
    (known : r.source ∈ types.map DeclaredType.id) :
    ∃ line, edge (firsts types) r = some line ∧ Shown types r line := by
  cases source : lookup r.source types with
  | none => exact absurd known (lookup_eq_none_iff.mp source)
  | some s =>
    obtain ⟨first, same⟩ := lookup_eq_some_iff.mp source
    rw [edge, lookup_firsts, lookup_firsts, source]
    refine ⟨_, rfl, s, _, first, same, ?_, rfl⟩
    cases target : lookup r.target types with
    | none => exact .inr ⟨lookup_eq_none_iff.mp target, rfl⟩
    | some t =>
      obtain ⟨declared, id⟩ := lookup_eq_some_iff.mp target
      exact .inl ⟨t, declared, id, rfl⟩

theorem filterMap_edge_shown {types : List DeclaredType} {rs : List Relation}
    (known : ∀ r ∈ rs, r.source ∈ types.map DeclaredType.id) :
    List.Forall₂ (Shown types) rs (rs.filterMap (edge (firsts types))) := by
  induction rs with
  | nil => exact .nil
  | cons r rs ih =>
    obtain ⟨line, found, shown⟩ := edge_shown (known r List.mem_cons_self)
    rw [List.filterMap_cons_some found]
    exact .cons shown (ih fun x later => known x (List.mem_cons_of_mem r later))

theorem edges_eq {p : Project} (sorted : Relation.Increasing p.relations)
    (types : List DeclaredType) : edges types p = p.relations.filterMap (edge types) := by
  have inOrder : p.relations.Pairwise fun a b => decide (a.source ≤ b.source) = true := by
    refine sorted.imp fun {a b} less => decide_eq_true ?_
    rcases Prod.Lex.toLex_lt_toLex.mp less with smaller | ⟨same, _⟩
    · exact smaller.le
    · exact same.le
  rw [edges, List.mergeSort_of_pairwise inOrder]

/-- What is to be drawn of a solution: namespaces in order, in each of them the first
declarations that are there, ordered by name and identifier, and a line for each relation. -/
structure Layout (s : Solution) where
  scopes : List String
  members : String → List DeclaredType
  edges : List Line
  scopes_increasing : scopes.Pairwise (· < ·)
  mem_scopes : ∀ scope, scope ∈ scopes ↔ ∃ t, First s.types t ∧ t.scope = scope
  members_increasing : ∀ scope, (members scope).Pairwise fun a b => memberKey a < memberKey b
  mem_members : ∀ scope t, t ∈ members scope ↔ First s.types t ∧ t.scope = scope
  edges_shown : List.Forall₂ (Shown s.types) (s.projects.flatMap Project.relations) edges

namespace Layout

variable {s : Solution} (l : Layout s)

def block (scope : String) : List Line :=
  [.opening (Label.scope scope)] ++
    (l.members scope).map (fun t => .member (Label.qualified t) t.stereotype) ++ [.closing]

def lines (direction : Option Direction) : List Line :=
  [.header] ++ (direction.map Line.direction).toList ++ l.scopes.flatMap l.block ++ l.edges

def memberText (t : DeclaredType) : String :=
  match t.stereotype with
  | none => "  class " ++ Label.qualified t
  | some mark => "  class " ++ Label.qualified t ++ " <<" ++ mark ++ ">>"

def blockTexts (scope : String) : List String :=
  ["namespace " ++ Label.scope scope ++ " \x7b"] ++ (l.members scope).map memberText ++ ["\x7d"]

def texts (direction : Option Direction) (edges : List String) : List String :=
  ["classDiagram"] ++ (direction.map fun d => "direction " ++ d.text).toList ++
    l.scopes.flatMap l.blockTexts ++ edges

theorem text_member (t : DeclaredType) :
    (Line.member (Label.qualified t) t.stereotype).text = memberText t := by
  unfold memberText
  cases t.stereotype <;> rfl

theorem map_text_block (scope : String) : (l.block scope).map Line.text = l.blockTexts scope := by
  have members : ((l.members scope).map fun t =>
      Line.member (Label.qualified t) t.stereotype).map Line.text =
        (l.members scope).map memberText := by
    rw [List.map_map]
    exact List.map_congr_left fun t _ => text_member t
  simp only [block, blockTexts, List.map_append, members]
  rfl

theorem map_text_lines (direction : Option Direction) :
    (l.lines direction).map Line.text = l.texts direction (l.edges.map Line.text) := by
  have front : (direction.map Line.direction).toList.map Line.text =
      (direction.map fun d => "direction " ++ d.text).toList := by
    cases direction <;> rfl
  simp only [lines, texts, List.map_append, front, List.map_flatMap, map_text_block]
  rfl

theorem mem_blocks {t : DeclaredType} :
    t ∈ l.scopes.flatMap l.members ↔ First s.types t := by
  rw [List.mem_flatMap]
  constructor
  · rintro ⟨scope, _, listed⟩
    exact ((l.mem_members scope t).mp listed).1
  · intro first
    exact ⟨t.scope, (l.mem_scopes _).mpr ⟨t, first, rfl⟩, (l.mem_members _ t).mpr ⟨first, rfl⟩⟩

theorem mem_ids_blocks {id : String} :
    id ∈ (l.scopes.flatMap l.members).map DeclaredType.id ↔ id ∈ s.types.map DeclaredType.id := by
  rw [← @mem_ids_firsts s.types, List.mem_map, List.mem_map]
  refine exists_congr fun t => and_congr_left fun _ => ?_
  rw [l.mem_blocks, mem_firsts]

theorem nodup_ids_blocks : ((l.scopes.flatMap l.members).map DeclaredType.id).Nodup := by
  -- First declarations of one identifier are the same, so it is enough that none is listed twice.
  refine List.Nodup.map_on ?_ (List.nodup_flatMap.mpr ⟨fun scope _ => ?_, ?_⟩)
  · intro a left b right same
    have first := mem_firsts.mpr (l.mem_blocks.mp left)
    have second := mem_firsts.mpr (l.mem_blocks.mp right)
    exact List.inj_on_of_nodup_map (nodup_ids_firsts _) first second same
  · refine (l.members_increasing scope).imp ?_
    rintro a b less rfl
    exact lt_irrefl _ less
  · refine l.scopes_increasing.imp fun {a b} less t left right => less.ne ?_
    rw [← ((l.mem_members a t).mp left).2, ← ((l.mem_members b t).mp right).2]

end Layout

theorem intercalate_concat (x : String) (xs : List String) :
    "\n".intercalate (x :: xs) ++ "\n" = String.join ((x :: xs).map (· ++ "\n")) := by
  induction xs generalizing x with
  | nil => simp [String.join]
  | cons y ys ih =>
    rw [String.intercalate_cons_cons, String.append_assoc, ih, List.map_cons (a := x),
      String.join_cons]

theorem text_eq_join (s : Solution) (direction : Option Direction) :
    text s direction = String.join ((lines s direction).map fun line => line.text ++ "\n") := by
  rw [text, lines, List.append_assoc, List.append_assoc, List.singleton_append, List.map_cons,
    intercalate_concat, ← List.map_cons, List.map_map]
  rfl

/-- Solutions as they come from units: the relations of each project are in order, and each of
them starts at a type of the project. -/
structure WellFormed (s : Solution) : Prop where
  increasing : ∀ p ∈ s.projects, Relation.Increasing p.relations
  source_mem : ∀ p ∈ s.projects, ∀ r ∈ p.relations, r.source ∈ p.types.map DeclaredType.id

namespace WellFormed

variable {s : Solution}

theorem source_mem_types (formed : WellFormed s) {r : Relation}
    (present : r ∈ s.projects.flatMap Project.relations) :
    r.source ∈ s.types.map DeclaredType.id := by
  obtain ⟨p, isProject, own⟩ := List.mem_flatMap.mp present
  rw [Solution.types, List.map_flatMap]
  exact List.mem_flatMap.mpr ⟨p, isProject, formed.source_mem p isProject r own⟩

def layout (formed : WellFormed s) : Layout s where
  scopes := scopes (firsts s.types)
  members := members (firsts s.types)
  edges := (s.projects.flatMap Project.relations).filterMap (edge (firsts s.types))
  scopes_increasing := scopes_increasing _
  mem_scopes scope := by simp only [Diagram.mem_scopes, mem_firsts]
  members_increasing := members_increasing (nodup_ids_firsts _)
  mem_members scope t := by rw [Diagram.mem_members, mem_firsts]
  edges_shown := filterMap_edge_shown fun _ => formed.source_mem_types

theorem lines_eq (formed : WellFormed s) (direction : Option Direction) :
    lines s direction = formed.layout.lines direction := by
  have same : s.projects.flatMap (edges (firsts s.types)) =
      (s.projects.flatMap Project.relations).filterMap (edge (firsts s.types)) := by
    rw [List.filterMap_flatMap]
    exact List.flatMap_congr fun p isProject => edges_eq (formed.increasing p isProject) _
  rw [lines, same]
  rfl

theorem text_eq (formed : WellFormed s) (direction : Option Direction) :
    text s direction = String.join
      ((formed.layout.texts direction (formed.layout.edges.map Line.text)).map (· ++ "\n")) := by
  rw [text_eq_join, formed.lines_eq, ← formed.layout.map_text_lines, List.map_map]
  rfl

end WellFormed

end Diagram

theorem BuildUnit.wellFormed_project {floor : AccessFloor} {unit : BuildUnit} {p : Project}
    (built : unit.project floor = .ok p) :
    Relation.Increasing p.relations ∧
      ∀ r ∈ p.relations, r.source ∈ p.types.map DeclaredType.id := by
  cases compiled : unit.symbols with
  | none => simp [project, compiled] at built
  | some tree =>
    rw [unit.project_eq compiled floor] at built
    cases built
    exact ⟨Gathered.relationsOf_increasing _, fun r => Gathered.source_mem_ids⟩

namespace Solution

theorem forall₂_projectsOf {floor : AccessFloor} {units : List BuildUnit} {ps : List Project}
    (built : projectsOf floor units = .ok ps) :
    List.Forall₂ (fun unit p => unit.project floor = .ok p) units ps := by
  induction units generalizing ps with
  | nil =>
    cases built
    exact .nil
  | cons unit units ih =>
    unfold projectsOf at built
    split at built
    · cases built
    next first made =>
      cases rest : projectsOf floor units with
      | error failure => simp [rest, Except.map] at built
      | ok ps =>
        rw [rest] at built
        cases built
        exact .cons made (ih rest)

theorem projects_of_units {floor : AccessFloor} {units : List BuildUnit} {s : Solution}
    (built : ofUnits floor units = .ok s) :
    List.Forall₂ (fun unit p => unit.project floor = .ok p) units s.projects := by
  cases projects : projectsOf floor units with
  | error failure => simp [ofUnits, projects, Except.map] at built
  | ok ps =>
    rw [ofUnits, projects] at built
    cases built
    exact forall₂_projectsOf projects

theorem wellFormed {floor : AccessFloor} {units : List BuildUnit} {s : Solution}
    (built : ofUnits floor units = .ok s) : Diagram.WellFormed s := by
  have made := projects_of_units built
  have each : ∀ p ∈ s.projects, Relation.Increasing p.relations ∧
      ∀ r ∈ p.relations, r.source ∈ p.types.map DeclaredType.id := by
    intro p isProject
    obtain ⟨i, bound, rfl⟩ := List.getElem_of_mem isProject
    exact BuildUnit.wellFormed_project (made.get (made.length_eq ▸ bound) bound)
  exact ⟨fun p isProject => (each p isProject).1, fun p isProject => (each p isProject).2⟩

end Solution

namespace Diagram

/-- The lines of a diagram, exactly. Its blocks show each declared identifier once, as it is
declared first, and there are as many edges as relations, in the order of the relations; and so it
is printed. -/
theorem lines_exact {floor : AccessFloor} {units : List BuildUnit} {s : Solution}
    (built : Solution.ofUnits floor units = .ok s) (direction : Option Direction) :
    text s direction = String.join ((lines s direction).map fun line => line.text ++ "\n") ∧
      (∀ p ∈ s.projects, p.relations.Pairwise fun a b => a.key < b.key) ∧
      ∃ l : Layout s, lines s direction = l.lines direction ∧
        ((l.scopes.flatMap l.members).map DeclaredType.id).Nodup ∧
        (∀ id, id ∈ (l.scopes.flatMap l.members).map DeclaredType.id ↔
          id ∈ s.types.map DeclaredType.id) ∧
        l.edges.length = s.relationCount ∧
        ∃ edges, List.Forall₂ (Printed s.types) (s.projects.flatMap Project.relations) edges ∧
          text s direction = String.join ((l.texts direction edges).map (· ++ "\n")) := by
  have formed := Solution.wellFormed built
  refine ⟨text_eq_join s direction, formed.increasing, formed.layout, formed.lines_eq direction,
    formed.layout.nodup_ids_blocks, fun _ => formed.layout.mem_ids_blocks,
    formed.layout.edges_shown.length_eq.symm, _, ?_, formed.text_eq direction⟩
  exact List.forall₂_map_right_iff.mpr (formed.layout.edges_shown.imp fun _ _ => Shown.printed)

/-- A unit that declares `A` once more, in another namespace, and derives from a type of the
unit before it. -/
def secondUnit : BuildUnit :=
  ⟨"V", ⟨"V"⟩, some ⟨"", [{ TypeSymbol.bare "A" with docId := some "A", scope := "N" },
    { TypeSymbol.bare "D" with base := some (.known "A"), interfaces := [.known "T:X.Y"] }], []⟩,
    []⟩

theorem lines_exact_twoUnits :
    ∃ s, Solution.ofUnits .pub [relatedUnit, secondUnit] = .ok s ∧
      ∃ l : Layout s, lines s (some .leftRight) = l.lines (some .leftRight) ∧
        ((l.scopes.flatMap l.members).map DeclaredType.id).Nodup ∧
        "A" ∈ (l.scopes.flatMap l.members).map DeclaredType.id ∧ l.edges.length = 5 ∧
        ∃ edges, List.Forall₂ (Printed s.types) (s.projects.flatMap Project.relations) edges ∧
          text s (some .leftRight) =
            String.join ((l.texts (some .leftRight) edges).map (· ++ "\n")) := by
  obtain ⟨s, built⟩ : ∃ s, Solution.ofUnits .pub [relatedUnit, secondUnit] = .ok s := ⟨_, rfl⟩
  obtain ⟨_, _, l, exact, once, all, count, printed⟩ := lines_exact built (some .leftRight)
  refine ⟨s, built, l, exact, once, (all "A").mpr ?_, count.trans ?_, printed⟩
  all_goals
    cases built
    decide

end Diagram

end ClassDiagram
