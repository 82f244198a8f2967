import ClassDiagram.Proofs.Extraction.Occurrence
import Mathlib.Data.List.Perm.Basic

/-! The type symbols of a tree of namespaces, as they are met on the way through it. Where a type
ends up depends on what the tree holds already, but it is added to those of the tree, and none is
lost or met twice. -/

namespace ClassDiagram

theorem TypeSymbol.gatherAll_append (floor : AccessFloor) (ts us : List TypeSymbol)
    (g : Gathered) : gatherAll floor g (ts ++ us) = gatherAll floor (gatherAll floor g ts) us := by
  induction ts generalizing g with
  | nil => rfl
  | cons t ts ih => rw [List.cons_append, gatherAll, gatherAll, ih]

namespace NamespaceTree

mutual

def symbols : NamespaceTree → List TypeSymbol
  | ⟨_, types, children⟩ => types ++ symbolsAll children

def symbolsAll : List NamespaceTree → List TypeSymbol
  | [] => []
  | ns :: rest => symbols ns ++ symbolsAll rest

end

theorem symbols_eq (ns : NamespaceTree) : ns.symbols = ns.types ++ symbolsAll ns.children := by
  cases ns
  rw [symbols]

theorem symbols_empty (name : String) : (empty name).symbols = [] := rfl

theorem occurrences_empty (name : String) : (empty name).occurrences = [] := rfl

mutual

theorem gather_eq_gatherAll (floor : AccessFloor) (ns : NamespaceTree) (g : Gathered) :
    gather floor g ns = TypeSymbol.gatherAll floor g ns.symbols := by
  match ns with
  | ⟨_, types, children⟩ =>
    rw [gather, symbols, TypeSymbol.gatherAll_append]
    exact gatherAll_eq_gatherAll floor children _

theorem gatherAll_eq_gatherAll (floor : AccessFloor) (rest : List NamespaceTree) (g : Gathered) :
    gatherAll floor g rest = TypeSymbol.gatherAll floor g (symbolsAll rest) := by
  match rest with
  | [] => rfl
  | ns :: rest =>
    rw [gatherAll, symbolsAll, TypeSymbol.gatherAll_append, gather_eq_gatherAll floor ns g]
    exact gatherAll_eq_gatherAll floor rest _

end

mutual

theorem occurrences_eq_flatMap (ns : NamespaceTree) :
    ns.occurrences = ns.symbols.flatMap (TypeSymbol.occurrences []) := by
  match ns with
  | ⟨_, types, children⟩ =>
    rw [occurrences, symbols, List.flatMap_append, TypeSymbol.occurrencesAll_eq_flatMap,
      occurrencesAll_eq_flatMap children]

theorem occurrencesAll_eq_flatMap (rest : List NamespaceTree) :
    occurrencesAll rest = (symbolsAll rest).flatMap (TypeSymbol.occurrences []) := by
  match rest with
  | [] => rfl
  | ns :: rest =>
    rw [occurrencesAll, symbolsAll, List.flatMap_append, occurrences_eq_flatMap ns,
      occurrencesAll_eq_flatMap rest]

end

theorem symbolsAll_withChild {name : String} {edit : NamespaceTree → NamespaceTree}
    {added : List TypeSymbol} (adds : ∀ ns, (edit ns).symbols.Perm (ns.symbols ++ added))
    (children : List NamespaceTree) :
    (symbolsAll (withChild name edit children)).Perm (symbolsAll children ++ added) := by
  induction children with
  | nil => simpa [withChild, symbolsAll, symbols_empty] using adds (empty name)
  | cons child rest ih =>
    unfold withChild
    split
    · rw [symbolsAll, symbolsAll, List.append_assoc]
      refine ((adds child).append_right _).trans ?_
      rw [List.append_assoc]
      exact List.perm_append_comm.append_left _
    · rw [symbolsAll, symbolsAll, List.append_assoc]
      exact ih.append_left _

theorem symbols_addAt (t : TypeSymbol) (path : List String) (ns : NamespaceTree) :
    (addAt t path ns).symbols.Perm (ns.symbols ++ [t]) := by
  induction path generalizing ns with
  | nil =>
    rw [addAt, symbols_eq, symbols_eq, List.append_assoc, List.append_assoc]
    exact List.perm_append_comm.append_left _
  | cons name path ih =>
    rw [addAt, symbols_eq, symbols_eq, List.append_assoc]
    exact (symbolsAll_withChild ih ns.children).append_left _

section

variable {α : Type} (path : α → String) (symbol : α → TypeSymbol) (xs : List α)

theorem symbols_foldl_add (ns : NamespaceTree) :
    (xs.foldl (fun tree x => tree.add (path x) (symbol x)) ns).symbols.Perm
      (ns.symbols ++ xs.map symbol) := by
  induction xs generalizing ns with
  | nil => simp
  | cons x xs ih =>
    rw [List.foldl_cons, List.map_cons, List.append_cons]
    exact (ih _).trans ((symbols_addAt _ _ ns).append_right _)

theorem occurrences_foldl_add (ns : NamespaceTree) :
    (xs.foldl (fun tree x => tree.add (path x) (symbol x)) ns).occurrences.Perm
      (ns.occurrences ++ xs.flatMap fun x => (symbol x).occurrences []) := by
  have placed := (symbols_foldl_add path symbol xs ns).flatMap_right (TypeSymbol.occurrences [])
  rwa [List.flatMap_append, List.flatMap_map, ← occurrences_eq_flatMap,
    ← occurrences_eq_flatMap] at placed

end

end NamespaceTree

end ClassDiagram
