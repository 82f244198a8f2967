import ClassDiagram.Proofs.Extraction.Relations

/-! Floors that let more in. A symbol that is drawn stays drawn under such a floor, since the
types around it do. Parts of a type that are met only then may describe it anew and come before
the others, but they take away no type, no flag and no relation. -/

namespace ClassDiagram

namespace AccessFloor

/-- The second floor admits what the first one does. -/
def Within (f g : AccessFloor) : Prop := ∀ access, f.admits access = true → g.admits access = true

theorem within_of_rank {f g : AccessFloor} (lower : g.rank ≤ f.rank) : Within f g :=
  fun _ => admits_mono lower

end AccessFloor

variable {f g : AccessFloor}

theorem TypeSymbol.drawn_of_within (within : f.Within g) {t : TypeSymbol}
    (shown : t.drawn f = true) : t.drawn g = true := by
  rw [TypeSymbol.drawn, Bool.and_eq_true] at *
  exact ⟨shown.1, within _ shown.2⟩

namespace Occurrence

theorem drawn_of_within (within : f.Within g) {o : Occurrence} (shown : o.drawn f = true) :
    o.drawn g = true := by
  rw [drawn, Bool.and_eq_true, List.all_eq_true] at *
  exact ⟨TypeSymbol.drawn_of_within within shown.1,
    fun t around => TypeSymbol.drawn_of_within within (shown.2 t around)⟩

theorem drawnOf_sublist (within : f.Within g) (os : List Occurrence) :
    (drawnOf f os).Sublist (drawnOf g os) :=
  (List.monotone_filter_right os fun _ => drawn_of_within within).map symbol

end Occurrence

namespace Gathered

variable {ts us : List TypeSymbol}

theorem part_mono (sub : ts ⊆ us) {i : String} {flag : TypeSymbol → Bool}
    (flagged : (partsOf i ts).any flag = true) : (partsOf i us).any flag = true := by
  obtain ⟨part, own, holds⟩ := List.any_eq_true.mp flagged
  obtain ⟨drawn, named⟩ := List.mem_filter.mp own
  exact List.any_eq_true.mpr ⟨part, List.mem_filter.mpr ⟨sub drawn, named⟩, holds⟩

theorem typesOf_mono (sub : ts ⊆ us) {t : DeclaredType} (present : t ∈ typesOf ts) :
    ∃ s ∈ typesOf us, s.id = t.id ∧
      (t.isAbstract = true → s.isAbstract = true) ∧ (t.isSealed = true → s.isSealed = true) ∧
        (t.isStatic = true → s.isStatic = true) := by
  have known : t.id ∈ (typesOf us).map DeclaredType.id := by
    have own := List.mem_map_of_mem (f := DeclaredType.id) present
    rw [ids_typesOf, List.mem_eraseDups] at *
    exact List.map_subset TypeSymbol.id sub own
  obtain ⟨s, there, named⟩ := List.mem_map.mp known
  obtain ⟨_, _, whole⟩ := eq_of_mem_typesOf present
  obtain ⟨_, _, whole'⟩ := eq_of_mem_typesOf there
  rw [named] at whole'
  refine ⟨s, there, named, ?_⟩
  rw [whole, whole']
  exact ⟨part_mono sub, part_mono sub, part_mono sub⟩

theorem relationsOf_mono (sub : ts ⊆ us) : relationsOf ts ⊆ relationsOf us := by
  intro r present
  obtain ⟨t, drawn, own⟩ := (mem_relationsOf ts r).mp present
  exact (mem_relationsOf us r).mpr ⟨t, sub drawn, own⟩

end Gathered

/-- Under a floor that admits more, a project keeps its types, each with its flags, and its
relations. -/
theorem project_grows {unit : BuildUnit} {tree : NamespaceTree}
    (compiled : unit.symbols = some tree) (within : f.Within g) :
    ∃ p q, unit.project f = .ok p ∧ unit.project g = .ok q ∧
      (∀ t ∈ p.types, ∃ s ∈ q.types, s.id = t.id ∧
        (t.isAbstract = true → s.isAbstract = true) ∧ (t.isSealed = true → s.isSealed = true) ∧
          (t.isStatic = true → s.isStatic = true)) ∧
      ∀ r ∈ p.relations, r ∈ q.relations := by
  have sub : tree.drawnSymbols f ⊆ tree.drawnSymbols g :=
    (Occurrence.drawnOf_sublist within tree.occurrences).subset
  refine ⟨_, _, unit.project_eq compiled f, unit.project_eq compiled g, ?_, ?_⟩
  · exact fun _ present => Gathered.typesOf_mono sub present
  · exact fun _ present => Gathered.relationsOf_mono sub present

/-- A part of `A` that only the lower floor admits is met after the two others, which leave it
abstract and sealed. -/
theorem project_grows_parts :
    partsUnit.symbols = some partsTree ∧ AccessFloor.pub.Within .intern ∧
      ∃ q, partsUnit.project .intern = .ok q ∧
        ∃ s ∈ q.types, s.id = "A" ∧ s.isAbstract = true ∧ s.isSealed = true := by
  have compiled : partsUnit.symbols = some partsTree := rfl
  have within : AccessFloor.pub.Within .intern := AccessFloor.within_of_rank (by decide)
  refine ⟨compiled, within, ?_⟩
  obtain ⟨p, q, built, built', types, _⟩ := project_grows compiled within
  have whole : ∃ p', partsUnit.project .pub = .ok p' ∧
      ∃ t ∈ p'.types, t.id = "A" ∧ t.isAbstract = true ∧ t.isSealed = true :=
    ⟨_, rfl, by decide⟩
  obtain ⟨p', again, t, present, isA, abstracted, closed⟩ := whole
  obtain rfl : p = p' := Except.ok.inj (built.symm.trans again)
  obtain ⟨s, there, named, abstracts, seals, _⟩ := types t present
  exact ⟨q, built', s, there, named.trans isA, abstracts abstracted, seals closed⟩

end ClassDiagram
