import ClassDiagram.Proofs.Extraction.Types
import Mathlib.Data.Prod.Lex
import Mathlib.Data.String.Basic

/-! The relations of a project. They are a set that is kept in order: by source, then target,
then kind. Its members are the relations of the drawn symbols, nothing more and nothing less,
and each of them starts at a type of the project. -/

namespace ClassDiagram

namespace Relation

def key (r : Relation) : String ×ₗ String ×ₗ Nat :=
  toLex (r.source, toLex (r.target, r.kind.rank))

theorem key_injective : Function.Injective key := by
  rintro ⟨source, target, kind⟩ ⟨source', target', kind'⟩ same
  simp only [key, toLex_inj, Prod.mk.injEq] at same
  obtain ⟨rfl, rfl, rank⟩ := same
  cases kind <;> cases kind' <;> first | rfl | cases rank

theorem before_iff (a b : Relation) : a.before b = true ↔ a.key < b.key := by
  simp only [before, key, Prod.Lex.toLex_lt_toLex, Bool.or_eq_true, Bool.and_eq_true,
    decide_eq_true_eq, beq_iff_eq]

def Increasing (rs : List Relation) : Prop := rs.Pairwise fun a b => a.key < b.key

theorem Increasing.nodup {rs : List Relation} (sorted : Increasing rs) : rs.Nodup := by
  refine List.Pairwise.imp ?_ sorted
  rintro a b less rfl
  exact lt_irrefl _ less

theorem insert_increasing (r : Relation) {rs : List Relation} (sorted : Increasing rs) :
    Increasing (insert r rs) := by
  induction rs with
  | nil => exact List.pairwise_singleton _ r
  | cons x xs ih =>
    obtain ⟨first, rest⟩ := List.pairwise_cons.mp sorted
    unfold insert
    split
    · exact sorted
    next other =>
      split
      next less =>
        have smaller := (before_iff r x).mp less
        refine List.pairwise_cons.mpr ⟨?_, sorted⟩
        intro y present
        rcases List.mem_cons.mp present with rfl | later
        · exact smaller
        · exact smaller.trans (first y later)
      next notLess =>
        have notSmaller : ¬r.key < x.key := fun less => notLess ((before_iff r x).mpr less)
        have greater : x.key < r.key :=
          lt_of_le_of_ne (not_lt.mp notSmaller) fun equal => other (key_injective equal).symm
        refine List.pairwise_cons.mpr ⟨?_, ih rest⟩
        intro y present
        rcases (mem_insert r y xs).mp present with rfl | later
        · exact greater
        · exact first y later

theorem Increasing.eq_of_mem_iff {rs rs' : List Relation} (sorted : Increasing rs)
    (sorted' : Increasing rs') (same : ∀ r, r ∈ rs ↔ r ∈ rs') : rs = rs' := by
  have perm : rs.Perm rs' := (List.perm_ext_iff_of_nodup sorted.nodup sorted'.nodup).mpr same
  refine perm.eq_of_pairwise ?_ sorted sorted'
  intro a b _ _ less greater
  exact absurd greater less.asymm

end Relation

namespace TypeSymbol

/-- The base of the symbol is the type of an identifier, and not the root type. -/
def Inherits (t : TypeSymbol) (target : String) : Prop :=
  ∃ ref, t.base = some ref ∧ ref.id = some target ∧ ref.isRoot = false

def Realizes (t : TypeSymbol) (target : String) : Prop :=
  ∃ ref ∈ t.interfaces, ref.id = some target

theorem mem_relations (t : TypeSymbol) (r : Relation) :
    r ∈ t.relations ↔
      (∃ target, t.Inherits target ∧ r = ⟨t.id, target, .inheritance⟩) ∨
        ∃ target, t.Realizes target ∧ r = ⟨t.id, target, .realization⟩ := by
  rw [relations, List.mem_append]
  apply or_congr
  · unfold Inherits
    split
    next target hasBase => simp [hasBase]
    next other =>
      constructor
      · intro present
        cases present
      · rintro ⟨target, ⟨⟨_, _⟩, hasBase, rfl, rfl⟩, rfl⟩
        exact absurd hasBase (other target)
  · simp only [Realizes, List.mem_filterMap, Option.map_eq_some_iff]
    constructor
    · rintro ⟨ref, present, target, leads, rfl⟩
      exact ⟨target, ⟨ref, present, leads⟩, rfl⟩
    · rintro ⟨target, ⟨ref, present, leads⟩, rfl⟩
      exact ⟨ref, present, target, leads, rfl⟩

theorem source_of_mem_relations {t : TypeSymbol} {r : Relation} (present : r ∈ t.relations) :
    r.source = t.id := by
  rcases (mem_relations t r).mp present with ⟨_, _, rfl⟩ | ⟨_, _, rfl⟩ <;> rfl

end TypeSymbol

namespace Gathered

theorem relate_increasing {known : List Relation} (sorted : Relation.Increasing known)
    (found : List Relation) : Relation.Increasing (relate known found) := by
  induction found generalizing known with
  | nil => exact sorted
  | cons r rest ih => exact ih (Relation.insert_increasing r sorted)

theorem mem_relate (known found : List Relation) (r : Relation) :
    r ∈ relate known found ↔ r ∈ known ∨ r ∈ found := by
  induction found generalizing known with
  | nil => simp [relate]
  | cons x rest ih =>
    rw [relate, List.foldl_cons]
    refine (ih (x.insert known)).trans ?_
    rw [Relation.mem_insert, List.mem_cons]
    tauto

def relationsOf (ts : List TypeSymbol) : List Relation := (ts.foldl add empty).relations

theorem relationsOf_concat (ts : List TypeSymbol) (t : TypeSymbol) :
    relationsOf (ts ++ [t]) = relate (relationsOf ts) t.relations := by
  rw [relationsOf, List.foldl_append]
  rfl

theorem relationsOf_increasing (ts : List TypeSymbol) : Relation.Increasing (relationsOf ts) := by
  induction ts using List.reverseRecOn with
  | nil => exact List.Pairwise.nil
  | append_singleton ts t ih =>
    rw [relationsOf_concat]
    exact relate_increasing ih _

theorem mem_relationsOf (ts : List TypeSymbol) (r : Relation) :
    r ∈ relationsOf ts ↔ ∃ t ∈ ts, r ∈ t.relations := by
  induction ts using List.reverseRecOn with
  | nil => simp [relationsOf, empty]
  | append_singleton ts t ih =>
    rw [relationsOf_concat, mem_relate, ih]
    simp [or_and_right, exists_or]

theorem source_mem_ids {ts : List TypeSymbol} {r : Relation} (present : r ∈ relationsOf ts) :
    r.source ∈ (typesOf ts).map DeclaredType.id := by
  obtain ⟨t, drawn, own⟩ := (mem_relationsOf ts r).mp present
  rw [ids_typesOf, List.mem_eraseDups, TypeSymbol.source_of_mem_relations own]
  exact List.mem_map_of_mem drawn

end Gathered

/-- The relations of a project are in strict order of source, target and kind, and they are
exactly those of the drawn symbols: to a known base that is not the root type, and to each
known interface. Each starts at a type of the project. -/
theorem project_relations_exact {unit : BuildUnit} {tree : NamespaceTree}
    (compiled : unit.symbols = some tree) (floor : AccessFloor) :
    ∃ p, unit.project floor = .ok p ∧
      p.relations.Pairwise (fun a b => a.key < b.key) ∧ p.relations.Nodup ∧
      (∀ r, r ∈ p.relations ↔
        ∃ t ∈ tree.drawnSymbols floor,
          (∃ target, t.Inherits target ∧ r = ⟨t.id, target, .inheritance⟩) ∨
            ∃ target, t.Realizes target ∧ r = ⟨t.id, target, .realization⟩) ∧
      ∀ r ∈ p.relations, ∃ t ∈ p.types, t.id = r.source := by
  have sorted := Gathered.relationsOf_increasing (tree.drawnSymbols floor)
  refine ⟨_, unit.project_eq compiled floor, sorted, sorted.nodup, ?_, ?_⟩
  · intro r
    simp only [← TypeSymbol.mem_relations]
    exact Gathered.mem_relationsOf _ r
  · intro r present
    exact List.mem_map.mp (Gathered.source_mem_ids present)

/-- Two parts of `A` with one interface in common, the second part inside of `B`, and a type
that is not drawn with a part of `A` in it. -/
def relatedTree : NamespaceTree :=
  ⟨"", [{ TypeSymbol.bare "B" with
      base := some ⟨some "T:System.Object", true⟩
      nested := [{ TypeSymbol.bare "A" with interfaces := [.known "J", .unresolved, .known "I"] }] },
    { TypeSymbol.bare "A" with base := some (.known "B"), interfaces := [.known "I"] },
    { TypeSymbol.bare "C" with
      access := .intern, nested := [{ TypeSymbol.bare "A" with interfaces := [.known "K"] }] }],
    []⟩

def relatedUnit : BuildUnit := ⟨"U", ⟨"U"⟩, some relatedTree, []⟩

theorem project_relations_exact_parts :
    relatedUnit.symbols = some relatedTree ∧
      ∃ p, relatedUnit.project .pub = .ok p ∧ p.relations.Nodup ∧
        ⟨"A", "B", .inheritance⟩ ∈ p.relations ∧ ⟨"A", "J", .realization⟩ ∈ p.relations ∧
        ⟨"A", "K", .realization⟩ ∉ p.relations := by
  have compiled : relatedUnit.symbols = some relatedTree := rfl
  refine ⟨compiled, ?_⟩
  obtain ⟨p, built, _, distinct, members, _⟩ := project_relations_exact compiled .pub
  simp only [← TypeSymbol.mem_relations] at members
  refine ⟨p, built, distinct, (members _).mpr ?_, (members _).mpr ?_, mt (members _).mp ?_⟩
  all_goals decide

end ClassDiagram
