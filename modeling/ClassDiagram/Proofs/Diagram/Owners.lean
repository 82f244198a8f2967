import ClassDiagram.Proofs.Diagram.Completeness

/-! How often a relation is drawn. The relations of one project are a set, and each project draws its
own: a relation that several projects have is drawn by each of them, between types that are drawn
once for all. -/

namespace ClassDiagram

namespace Solution

/-- The number of projects that have a relation. -/
def owners (s : Solution) (r : Relation) : Nat :=
  s.projects.countP fun p => decide (r ∈ p.relations)

end Solution

namespace Diagram

theorem count_relations {ps : List Project}
    (sorted : ∀ p ∈ ps, Relation.Increasing p.relations) (r : Relation) :
    (ps.flatMap Project.relations).count r = ps.countP fun p => decide (r ∈ p.relations) := by
  induction ps with
  | nil => rfl
  | cons p ps ih =>
    obtain ⟨first, later⟩ := List.forall_mem_cons.mp sorted
    rw [List.flatMap_cons, List.count_append, ih later, List.countP_cons, first.nodup.count,
      Nat.add_comm]
    simp only [decide_eq_true_eq]

def edgeLine (types : List DeclaredType) (r : Relation) : Line := (edge (firsts types) r).getD .header

theorem filterMap_edge {types : List DeclaredType} {rs : List Relation}
    (known : ∀ r ∈ rs, r.source ∈ types.map DeclaredType.id) :
    rs.filterMap (edge (firsts types)) = rs.map (edgeLine types) := by
  rw [← List.filterMap_eq_map]
  refine List.filterMap_congr fun r mem => ?_
  obtain ⟨line, found, _⟩ := edge_shown (known r mem)
  simp [edgeLine, found]

theorem shown_edgeLine {types : List DeclaredType} {r : Relation}
    (known : r.source ∈ types.map DeclaredType.id) : Shown types r (edgeLine types r) := by
  obtain ⟨line, found, shown⟩ := edge_shown known
  rwa [edgeLine, found, Option.getD_some]

theorem count_map_of_unique {α β : Type} [BEq α] [LawfulBEq α] [BEq β] [LawfulBEq β] {f : α → β}
    {xs : List α} {x : α} (unique : ∀ y ∈ xs, f y = f x → y = x) :
    (xs.map f).count (f x) = xs.count x := by
  rw [List.count_eq_countP, List.count_eq_countP, List.countP_map]
  refine List.countP_congr fun y mem => ?_
  simp only [Function.comp_apply, beq_iff_eq]
  exact ⟨unique y mem, congrArg f⟩

theorem Layout.count_edge {s : Solution} (l : Layout s) (direction : Option Direction)
    (source target : String) (kind : RelationKind) :
    (l.lines direction).count (.edge source kind target) =
      l.edges.count (.edge source kind target) := by
  have front : ((direction.map Line.direction).toList).count (.edge source kind target) = 0 := by
    rw [List.count_eq_zero]
    cases direction <;> simp
  have middle : (l.scopes.flatMap l.block).count (.edge source kind target) = 0 := by
    rw [List.count_eq_zero, List.mem_flatMap]
    rintro ⟨scope, _, mem⟩
    simp [Layout.block] at mem
  rw [Layout.lines]
  simp only [List.count_append, front, middle]
  simp

/-- A relation of a solution is drawn once for each project that has it, and for nothing else. The
types between which it is drawn stand in the blocks above, each identifier once and as it is declared
first. -/
theorem edges_per_owner {floor : AccessFloor} {units : List BuildUnit} {s : Solution}
    (built : Solution.ofUnits floor units = .ok s) (direction : Option Direction) :
    List.Forall₂ (fun unit p => unit.project floor = .ok p) units s.projects ∧
      text s direction = String.join ((lines s direction).map fun line => line.text ++ "\n") ∧
      ∃ (l : Layout s) (drawn : List Relation) (line : Relation → Line),
        lines s direction = l.lines direction ∧ l.edges = drawn.map line ∧
        text s direction =
          String.join ((l.texts direction (drawn.map fun r => (line r).text)).map (· ++ "\n")) ∧
        (∀ r ∈ drawn, Shown s.types r (line r) ∧ Printed s.types r (line r).text) ∧
        (∀ r, drawn.count r = s.owners r) ∧
        (∀ r ∈ drawn, (∀ other ∈ drawn, line other = line r → other = r) →
          (lines s direction).count (line r) = s.owners r) ∧
        ((l.scopes.flatMap l.members).map DeclaredType.id).Nodup ∧
        ∀ t, t ∈ l.scopes.flatMap l.members ↔ First s.types t := by
  have formed := Solution.wellFormed built
  have shown : ∀ r ∈ s.projects.flatMap Project.relations, Shown s.types r (edgeLine s.types r) :=
    fun r mem => shown_edgeLine (formed.source_mem_types mem)
  have edges : formed.layout.edges = (s.projects.flatMap Project.relations).map (edgeLine s.types) :=
    filterMap_edge fun _ => formed.source_mem_types
  refine ⟨Solution.projects_of_units built, text_eq_join s direction, formed.layout, _, _,
    formed.lines_eq direction, edges, ?_, fun r mem => ⟨shown r mem, (shown r mem).printed⟩,
    count_relations formed.increasing, ?_, formed.layout.nodup_ids_blocks,
    fun _ => formed.layout.mem_blocks⟩
  · rw [formed.text_eq, edges, List.map_map]
    rfl
  · intro r mem unique
    obtain ⟨source, target, _, _, _, line⟩ := shown r mem
    have count : (s.projects.flatMap Project.relations).count r = s.owners r :=
      count_relations formed.increasing r
    rw [← count, ← count_map_of_unique unique, ← edges, formed.lines_eq direction, line,
      Layout.count_edge]

def derivedUnit (name : String) : BuildUnit :=
  ⟨name, ⟨name⟩, some ⟨"", [{ TypeSymbol.bare "A" with base := some (.known "T:B") }], []⟩, []⟩

theorem edges_per_owner_derived :
    ∃ s, Solution.ofUnits .pub [derivedUnit "U", derivedUnit "V"] = .ok s ∧
      ∃ (l : Layout s) (drawn : List Relation) (line : Relation → Line),
        lines s none = l.lines none ∧ l.edges = drawn.map line ∧
        drawn.count ⟨"A", "T:B", .inheritance⟩ = 2 ∧
        Shown s.types ⟨"A", "T:B", .inheritance⟩ (line ⟨"A", "T:B", .inheritance⟩) ∧
        Printed s.types ⟨"A", "T:B", .inheritance⟩ (line ⟨"A", "T:B", .inheritance⟩).text := by
  obtain ⟨s, built⟩ : ∃ s, Solution.ofUnits .pub [derivedUnit "U", derivedUnit "V"] = .ok s :=
    ⟨_, rfl⟩
  obtain ⟨_, _, l, drawn, line, all, edges, _, shown, count, _⟩ := edges_per_owner built none
  have twice : s.owners ⟨"A", "T:B", .inheritance⟩ = 2 := by
    cases built
    decide
  have count := (count ⟨"A", "T:B", .inheritance⟩).trans twice
  refine ⟨s, built, l, drawn, line, all, edges, count, shown _ ?_⟩
  exact List.count_pos_iff.mp (by omega)

/-- Two units that declare one type draw its one base twice. -/
theorem derived_drawn_twice :
    ∃ s, Solution.ofUnits .pub [derivedUnit "U", derivedUnit "V"] = .ok s ∧
      (∃ p ∈ s.projects, ⟨"A", "T:B", .inheritance⟩ ∈ p.relations) ∧
      (lines s none).count (.member "Global::A" none) = 1 ∧
      (lines s none).count (.edge "Global::A" .inheritance "B") = 2 := by
  refine ⟨_, rfl, ?_⟩
  decide +kernel

end Diagram

end ClassDiagram
