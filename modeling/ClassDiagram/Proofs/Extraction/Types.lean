import ClassDiagram.Diagram
import ClassDiagram.Proofs.Extraction.Occurrence
import Mathlib.Data.List.Induction
import Mathlib.Data.List.Nodup

/-! The types of a project. They are a map from identifiers that keeps its order: a new
identifier goes to the end, and a repeated one changes its entry in place. What is gathered
under an identifier is the join of the declarations of that identifier: described by the last
one, flagged by any. -/

namespace ClassDiagram

open Diagram (lookup)

theorem eraseDups_concat {α : Type} [BEq α] [LawfulBEq α] (xs : List α) (x : α) :
    (xs ++ [x]).eraseDups = if x ∈ xs then xs.eraseDups else xs.eraseDups ++ [x] := by
  rw [List.eraseDups_append]
  by_cases known : x ∈ xs <;> simp [List.removeAll, List.eraseDups_cons, known]

theorem nodup_eraseDups {α : Type} [BEq α] [LawfulBEq α] (xs : List α) :
    xs.eraseDups.Nodup := by
  induction xs using List.reverseRecOn with
  | nil => simp
  | append_singleton xs x ih =>
    rw [eraseDups_concat]
    split
    · exact ih
    next new =>
      have fresh : x ∉ xs.eraseDups := fun present => new (List.mem_eraseDups.mp present)
      rw [← List.concat_eq_append]
      exact ih.concat fresh

theorem find?_of_mem {α : Type} {key : α → String} {xs : List α} (distinct : (xs.map key).Nodup)
    {x : α} (present : x ∈ xs) : (xs.find? fun y => key y = key x) = some x := by
  induction xs with
  | nil => cases present
  | cons y ys ih =>
    obtain ⟨new, rest⟩ := List.nodup_cons.mp distinct
    rcases List.mem_cons.mp present with rfl | later
    · exact List.find?_cons_of_pos (decide_eq_true rfl)
    · have other : key y ≠ key x := fun same => new (same ▸ List.mem_map_of_mem later)
      rw [List.find?_cons_of_neg (by simpa using other)]
      exact ih rest later

namespace DeclaredType

/-- What the declarations of one identifier amount to. -/
def join (ds : List DeclaredType) : Option DeclaredType :=
  ds.foldl (fun whole d => some ((whole.map fun x => x.merge d).getD d)) none

theorem join_concat (ds : List DeclaredType) (d : DeclaredType) :
    join (ds ++ [d]) = some (((join ds).map fun x => x.merge d).getD d) := by
  simp [join]

theorem join_eq {ds : List DeclaredType} {last : DeclaredType} (ends : ds.getLast? = some last) :
    join ds = some
      { last with
        isAbstract := ds.any DeclaredType.isAbstract
        isSealed := ds.any DeclaredType.isSealed
        isStatic := ds.any DeclaredType.isStatic } := by
  induction ds using List.reverseRecOn generalizing last with
  | nil => simp at ends
  | append_singleton ds d ih =>
    have same : d = last := by simpa using ends
    subst same
    rw [join_concat]
    rcases ds.eq_nil_or_concat with rfl | ⟨init, x, rfl⟩
    · simp [join]
    · rw [ih (by simp : (init.concat x).getLast? = some x)]
      simp [merge, Bool.or_assoc]

end DeclaredType

namespace Gathered

open DeclaredType (join)

theorem lookup_mergeInto (i : String) (d : DeclaredType) (ts : List DeclaredType) :
    lookup i (mergeInto d ts) =
      if d.id = i then some (((lookup i ts).map fun x => x.merge d).getD d) else lookup i ts := by
  induction ts with
  | nil =>
    by_cases self : d.id = i <;> simp [mergeInto, lookup, self]
  | cons x xs ih =>
    unfold mergeInto
    by_cases same : x.id = d.id
    · by_cases self : d.id = i <;>
        simp [lookup, same, self, DeclaredType.merge_id]
    · rw [if_neg same]
      by_cases self : d.id = i
      · have other : x.id ≠ i := fun equal => same (equal.trans self.symm)
        simpa [lookup, self, other] using ih
      · by_cases here : x.id = i
        · simp [lookup, here, self]
        · simpa [lookup, here, self] using ih

theorem ids_mergeInto (d : DeclaredType) (ts : List DeclaredType) :
    (mergeInto d ts).map DeclaredType.id =
      if d.id ∈ ts.map DeclaredType.id then ts.map DeclaredType.id
      else ts.map DeclaredType.id ++ [d.id] := by
  induction ts with
  | nil => simp [mergeInto]
  | cons x xs ih =>
    unfold mergeInto
    by_cases same : x.id = d.id
    · simp [same, DeclaredType.merge_id]
    · have other : d.id ≠ x.id := fun equal => same equal.symm
      rw [if_neg same, List.map_cons, ih]
      by_cases known : d.id ∈ xs.map DeclaredType.id <;> simp [known, other]

def typesOf (ts : List TypeSymbol) : List DeclaredType := (ts.foldl add empty).types

theorem typesOf_concat (ts : List TypeSymbol) (t : TypeSymbol) :
    typesOf (ts ++ [t]) = mergeInto t.declared (typesOf ts) := by
  rw [typesOf, List.foldl_append]
  rfl

theorem ids_typesOf (ts : List TypeSymbol) :
    (typesOf ts).map DeclaredType.id = (ts.map TypeSymbol.id).eraseDups := by
  induction ts using List.reverseRecOn with
  | nil => rfl
  | append_singleton ts t ih =>
    rw [typesOf_concat, ids_mergeInto, ih, List.map_append, List.map_singleton,
      eraseDups_concat]
    simp only [List.mem_eraseDups]
    rfl

theorem nodup_ids_typesOf (ts : List TypeSymbol) :
    ((typesOf ts).map DeclaredType.id).Nodup := by
  rw [ids_typesOf]
  exact nodup_eraseDups _

theorem mergeInto_of_new {d : DeclaredType} {ts : List DeclaredType}
    (new : d.id ∉ ts.map DeclaredType.id) : mergeInto d ts = ts ++ [d] := by
  induction ts with
  | nil => rfl
  | cons x xs ih =>
    rw [List.map_cons, List.mem_cons, not_or] at new
    rw [mergeInto, if_neg (Ne.symm new.1), ih new.2, List.cons_append]

theorem typesOf_of_nodup {ts : List TypeSymbol} (distinct : (ts.map TypeSymbol.id).Nodup) :
    typesOf ts = ts.map TypeSymbol.declared := by
  induction ts using List.reverseRecOn with
  | nil => rfl
  | append_singleton ts t ih =>
    rw [List.map_append, List.nodup_append] at distinct
    obtain ⟨before, _, apart⟩ := distinct
    have new : t.declared.id ∉ (typesOf ts).map DeclaredType.id := by
      rw [ids_typesOf, List.mem_eraseDups]
      exact fun known => apart t.id known t.id (List.mem_singleton_self _) rfl
    rw [typesOf_concat, mergeInto_of_new new, ih before, List.map_append, List.map_singleton]

def partsOf (i : String) (ts : List TypeSymbol) : List TypeSymbol := ts.filter fun t => t.id = i

theorem lookup_typesOf (i : String) (ts : List TypeSymbol) :
    lookup i (typesOf ts) = join ((partsOf i ts).map TypeSymbol.declared) := by
  induction ts using List.reverseRecOn with
  | nil => rfl
  | append_singleton ts t ih =>
    have head : t.declared.id = t.id := rfl
    rw [typesOf_concat, lookup_mergeInto, ih, head]
    by_cases self : t.id = i
    · have parts : partsOf i (ts ++ [t]) = partsOf i ts ++ [t] := by simp [partsOf, self]
      rw [if_pos self, parts, List.map_append, List.map_singleton, DeclaredType.join_concat]
    · have parts : partsOf i (ts ++ [t]) = partsOf i ts := by simp [partsOf, self]
      rw [if_neg self, parts]

theorem lookup_of_mem {ts : List DeclaredType} (distinct : (ts.map DeclaredType.id).Nodup)
    {t : DeclaredType} (present : t ∈ ts) : lookup t.id ts = some t :=
  find?_of_mem distinct present

theorem eq_of_mem_typesOf {ts : List TypeSymbol} {t : DeclaredType} (present : t ∈ typesOf ts) :
    ∃ last, (partsOf t.id ts).getLast? = some last ∧
      t = { last.declared with
        isAbstract := (partsOf t.id ts).any TypeSymbol.isAbstract
        isSealed := (partsOf t.id ts).any TypeSymbol.isSealed
        isStatic := (partsOf t.id ts).any TypeSymbol.isStatic } := by
  have found := lookup_of_mem (nodup_ids_typesOf ts) present
  rw [lookup_typesOf] at found
  cases ends : (partsOf t.id ts).getLast? with
  | none =>
    rw [List.getLast?_eq_none_iff.mp ends] at found
    cases found
  | some last =>
    have declaredLast : ((partsOf t.id ts).map TypeSymbol.declared).getLast? =
        some last.declared := by simp [ends]
    have whole := DeclaredType.join_eq declaredLast
    rw [whole, Option.some.injEq, List.any_map, List.any_map, List.any_map] at found
    exact ⟨last, rfl, found.symm⟩

end Gathered

/-- The types of a project are those of its drawn symbols, each identifier once and in the
order of first occurrence. The last occurrence gives name, namespace, kind and accessibility;
a flag holds when it holds of some occurrence. -/
theorem project_types_exact {unit : BuildUnit} {tree : NamespaceTree}
    (compiled : unit.symbols = some tree) (floor : AccessFloor) :
    ∃ p, unit.project floor = .ok p ∧
      p.types.map DeclaredType.id =
        ((tree.drawnSymbols floor).map TypeSymbol.id).eraseDups ∧
      ∀ t ∈ p.types,
        let parts := (tree.drawnSymbols floor).filter fun s => s.id = t.id
        ∃ last, parts.getLast? = some last ∧
          t.name = last.name ∧ t.scope = last.scope ∧ t.kind = last.kind ∧
          t.access = last.access ∧
          t.isAbstract = parts.any TypeSymbol.isAbstract ∧
          t.isSealed = parts.any TypeSymbol.isSealed ∧
          t.isStatic = parts.any TypeSymbol.isStatic := by
  refine ⟨_, unit.project_eq compiled floor, Gathered.ids_typesOf _, ?_⟩
  intro t present parts
  obtain ⟨last, ends, whole⟩ := Gathered.eq_of_mem_typesOf present
  refine ⟨last, ends, ?_⟩
  rw [whole]
  exact ⟨rfl, rfl, rfl, rfl, rfl, rfl, rfl⟩

def TypeSymbol.bare (name : String) : TypeSymbol where
  name := name
  scope := ""
  docId := none
  kind := .classType
  access := .pub
  isAbstract := false
  isSealed := false
  isStatic := false
  inSource := true
  base := none
  interfaces := []
  nested := []

/-- Two parts of `A`, the second one sealed and inside of `B`, and a part that is not drawn. -/
def partsTree : NamespaceTree :=
  ⟨"", [{ TypeSymbol.bare "A" with isAbstract := true },
    { TypeSymbol.bare "B" with nested := [{ TypeSymbol.bare "A" with isSealed := true }] },
    { TypeSymbol.bare "C" with
      access := .intern, nested := [{ TypeSymbol.bare "A" with isStatic := true }] }], []⟩

def partsUnit : BuildUnit := ⟨"U", ⟨"U"⟩, some partsTree, []⟩

theorem project_types_exact_parts :
    partsUnit.symbols = some partsTree ∧
      ∃ p, partsUnit.project .pub = .ok p ∧ p.types.map DeclaredType.id = ["A", "B"] ∧
        ∀ t ∈ p.types, t.id = "A" →
          t.isAbstract = true ∧ t.isSealed = true ∧ t.isStatic = false := by
  have compiled : partsUnit.symbols = some partsTree := rfl
  refine ⟨compiled, ?_⟩
  obtain ⟨p, built, ids, parts⟩ := project_types_exact compiled .pub
  refine ⟨p, built, ids.trans (by decide), ?_⟩
  intro t present isA
  obtain ⟨last, _, _, _, _, _, abstracts, seals, statics⟩ := parts t present
  rw [isA] at abstracts seals statics
  exact ⟨abstracts.trans (by decide), seals.trans (by decide), statics.trans (by decide)⟩

end ClassDiagram
