import ClassDiagram.Proofs.Dump.Parts

/-! Whether a type realizes what its base realizes, and what its interfaces realize. A project
unites the relations of all parts of a type, but the index of a dump holds the first declaration
of an identifier alone. An interface that only a later part of a type leads to is therefore not
handed on to the types that derive from it; what the first declaration leads to always is. -/

namespace ClassDiagram

namespace Dump

/-- Realizations are handed on from a base, and from an interface that has no base itself. -/
structure HandedOn (dump : Dump) (p : Project) : Prop where
  fromBase : ∀ t base target : String,
    ⟨t, base, .inheritance⟩ ∈ p.relations → base ∈ dump.declared.map Entry.id →
    ⟨base, target, .realization⟩ ∈ p.relations → ⟨t, target, .realization⟩ ∈ p.relations
  fromInterface : ∀ t via target : String,
    ⟨t, via, .realization⟩ ∈ p.relations → via ∈ dump.declared.map Entry.id →
    (∀ e ∈ dump.declared, e.id = via → e.base = none) →
    ⟨via, target, .realization⟩ ∈ p.relations → ⟨t, target, .realization⟩ ∈ p.relations

/-- Some part of a type realizes an interface, but the type's first declaration does not. -/
def Late (floor : AccessFloor) (dump : Dump) (id target : String) : Prop :=
  (∃ p ∈ dump.parts floor, p.id = id ∧ p.Realizes (Index.ofDump dump) target) ∧
    ∀ e, Index.entry? (Index.ofDump dump) id = some e →
      ¬Realized (Index.ofDump dump) e.base e.interfaces target

/-- A part derives from a declared type, or realizes a declared type without a base. -/
def TakesOver (dump : Dump) (p : Part) (id : String) : Prop :=
  id ∈ dump.declared.map Entry.id ∧
    (p.Inherits id ∨
      p.Realizes (Index.ofDump dump) id ∧ ∀ e ∈ dump.declared, e.id = id → e.base = none)

/-- A part of a type leads to an interface, and not by way of another type. -/
def LeadsAround (floor : AccessFloor) (dump : Dump) (t via target : String) : Prop :=
  ∃ p ∈ dump.parts floor, p.id = t ∧ p.Realizes ((Index.ofDump dump).without via) target

theorem entry?_of_declared {dump : Dump} {id : String}
    (known : id ∈ dump.declared.map Entry.id) :
    ∃ e ∈ dump.declared, e.id = id ∧ Index.entry? (Index.ofDump dump) id = some e := by
  obtain ⟨x, present, same⟩ := List.mem_map.mp known
  cases found : dump.declared.find? fun e => e.id = id with
  | none => exact absurd same (by simpa using List.find?_eq_none.mp found x present)
  | some e =>
    refine ⟨e, List.mem_of_find?_eq_some found, by simpa using List.find?_some found, ?_⟩
    rw [ofDump_eq, Index.entry?, List.find?_append, found]
    rfl

section Edges

variable {floor : AccessFloor} {path : Path} {dump : Dump} {t target : String}

theorem inheritance_mem_project :
    ⟨t, target, .inheritance⟩ ∈ (dump.project floor path).relations ↔
      ∃ p ∈ dump.parts floor, p.id = t ∧ p.Inherits target := by
  simp [mem_project_relations, and_comm, eq_comm]

theorem realization_mem_project :
    ⟨t, target, .realization⟩ ∈ (dump.project floor path).relations ↔
      ∃ p ∈ dump.parts floor, p.id = t ∧ p.Realizes (Index.ofDump dump) target := by
  simp [mem_project_relations, and_comm, eq_comm]

end Edges

theorem realizes_of_takesOver {dump : Dump} {p : Part} {id target : String} {e : Entry}
    (takesOver : TakesOver dump p id) (known : Index.entry? (Index.ofDump dump) id = some e)
    (leads : Realized (Index.ofDump dump) e.base e.interfaces target) :
    p.Realizes (Index.ofDump dump) target := by
  obtain ⟨first, present, self, found⟩ := entry?_of_declared takesOver.1
  obtain rfl : first = e := Option.some.inj (found.symm.trans known)
  rcases takesOver.2 with inherits | ⟨reached, noBase⟩
  · rw [Part.Realizes, inherits]
    exact .of_base known leads
  · exact .of_interface known (noBase first present self) reached leads

section HandingOn

variable {floor : AccessFloor} {path : Path} {dump : Dump}

theorem realizes_or_late {p : Part} {via target : String} (takesOver : TakesOver dump p via)
    (realizes : ⟨via, target, .realization⟩ ∈ (dump.project floor path).relations) :
    p.Realizes (Index.ofDump dump) target ∨ Late floor dump via target := by
  obtain ⟨e, _, _, found⟩ := entry?_of_declared takesOver.1
  by_cases first : Realized (Index.ofDump dump) e.base e.interfaces target
  · exact .inl (realizes_of_takesOver takesOver found first)
  · refine .inr ⟨realization_mem_project.mp realizes, fun x known => ?_⟩
    obtain rfl : x = e := Option.some.inj (known.symm.trans found)
    exact first

theorem leadsAround_of_handedOn (handedOn : HandedOn dump (dump.project floor path)) {t : Part}
    (isPart : t ∈ dump.parts floor) {via target : String} (takesOver : TakesOver dump t via)
    (late : Late floor dump via target) : LeadsAround floor dump t.id via target := by
  obtain ⟨known, takesOver⟩ := takesOver
  obtain ⟨e, _, _, found⟩ := entry?_of_declared known
  have reaches : ⟨t.id, target, .realization⟩ ∈ (dump.project floor path).relations := by
    have realizes : ⟨via, target, .realization⟩ ∈ (dump.project floor path).relations :=
      realization_mem_project.mpr late.1
    rcases takesOver with inherits | ⟨realized, noBase⟩
    · exact handedOn.fromBase _ _ _ (inheritance_mem_project.mpr ⟨t, isPart, rfl, inherits⟩)
        known realizes
    · exact handedOn.fromInterface _ _ _
        (realization_mem_project.mpr ⟨t, isPart, rfl, realized⟩) known noBase realizes
  -- A way over `via` goes on from its entry, and the entry does not lead to `target`.
  obtain ⟨p, isPart', same, realizes⟩ := realization_mem_project.mp reaches
  rcases Realized.avoid found realizes with around | first
  · exact ⟨p, isPart', same, around⟩
  · exact absurd first (late.2 e found)

theorem handedOn_of_leadsAround
    (around : ∀ t ∈ dump.parts floor, ∀ via, TakesOver dump t via →
      ∀ target, Late floor dump via target → LeadsAround floor dump t.id via target) :
    HandedOn dump (dump.project floor path) := by
  have handOn : ∀ t ∈ dump.parts floor, ∀ via target, TakesOver dump t via →
      ⟨via, target, .realization⟩ ∈ (dump.project floor path).relations →
      ⟨t.id, target, .realization⟩ ∈ (dump.project floor path).relations := by
    intro t isPart via target takesOver realizes
    rw [realization_mem_project]
    rcases realizes_or_late takesOver realizes with own | late
    · exact ⟨t, isPart, rfl, own⟩
    · obtain ⟨p, isPart', same, leads⟩ := around t isPart via takesOver target late
      exact ⟨p, isPart', same, leads.mono (Index.without_within _ via) (List.Subset.refl _)⟩
  refine ⟨?_, ?_⟩
  · intro t base target derives known realizes
    obtain ⟨p, isPart, rfl, inherits⟩ := inheritance_mem_project.mp derives
    exact handOn p isPart base target ⟨known, .inl inherits⟩ realizes
  · intro t via target reached known noBase realizes
    obtain ⟨p, isPart, rfl, realized⟩ := realization_mem_project.mp reached
    exact handOn p isPart via target ⟨known, .inr ⟨realized, noBase⟩⟩ realizes

end HandingOn

/-- The project of a dump hands realizations on exactly when this holds: an interface that only
a later part of a type leads to is one to which each type that takes over from it leads on a
way around it. Interfaces of first declarations are handed on without any condition. -/
theorem project_handedOn_iff (floor : AccessFloor) (path : Path) (dump : Dump) :
    ∃ p, (dump.unit path).project floor = .ok p ∧
      (HandedOn dump p ↔
        ∀ t ∈ dump.parts floor, ∀ via, TakesOver dump t via →
          ∀ target, Late floor dump via target → LeadsAround floor dump t.id via target) := by
  refine ⟨_, project_unit floor path dump, ?_⟩
  constructor
  · intro handedOn t isPart via takesOver target late
    exact leadsAround_of_handedOn handedOn isPart takesOver late
  · exact handedOn_of_leadsAround

def laterPart : TypeDecl := { TypeDecl.bare "B" with interfaces := [.known "T:J"] }

def derived : TypeDecl := { TypeDecl.bare "T" with base := some (.known "T:B") }

/-- The second part of `B` brings in an interface, and `T` derives from `B`. -/
def lateDump : Dump := ⟨none, [TypeDecl.bare "B", laterPart, derived], []⟩

theorem late_interface_not_handedOn :
    ∃ p, (lateDump.unit ⟨"Shop.symbols.json"⟩).project .pub = .ok p ∧
      ⟨"T:T", "T:B", .inheritance⟩ ∈ p.relations ∧ "T:B" ∈ lateDump.declared.map Entry.id ∧
      ⟨"T:B", "T:J", .realization⟩ ∈ p.relations ∧
      ⟨"T:T", "T:J", .realization⟩ ∉ p.relations := by
  have parts : lateDump.parts .pub =
    [(TypeDecl.bare "B").partIn "" [], laterPart.partIn "" [], derived.partIn "" []] := rfl
  have first : Index.entry? (Index.ofDump lateDump) "T:B" = some ⟨"T:B", none, []⟩ := rfl
  refine ⟨_, project_unit .pub ⟨"Shop.symbols.json"⟩ lateDump, ?_, by decide, ?_, ?_⟩
  · rw [inheritance_mem_project, parts]
    exact ⟨derived.partIn "" [], by simp, rfl, rfl⟩
  · rw [realization_mem_project, parts]
    exact ⟨laterPart.partIn "" [], by simp, rfl, .own (List.mem_singleton_self _) rfl⟩
  · rw [realization_mem_project, parts]
    rintro ⟨p, isPart, same, realized⟩
    simp only [List.mem_cons, List.not_mem_nil, or_false] at isPart
    rcases isPart with rfl | rfl | rfl
    · exact absurd same (by decide)
    · exact absurd same (by decide)
    · refine not_realized (fun e chain => ?_) realized
      cases chain with
      | here known =>
        obtain rfl := Option.some.inj (known.symm.trans first)
        rfl
      | above known rest =>
        obtain rfl := Option.some.inj (known.symm.trans first)
        cases rest

end Dump

end ClassDiagram
