import ClassDiagram.Extraction

/-! The occurrences of type symbols in a tree of namespaces, each with the types around it. A
symbol is drawn when the floor admits it and every type around it. Gathering a tree is adding
its drawn symbols one by one, in the order of their occurrences. -/

namespace ClassDiagram

/-- A type symbol and the types around it, the outermost one first. -/
structure Occurrence where
  around : List TypeSymbol
  symbol : TypeSymbol

namespace TypeSymbol

mutual

def occurrences (around : List TypeSymbol) : TypeSymbol → List Occurrence
  | t@⟨_, _, _, _, _, _, _, _, _, _, _, nested⟩ =>
    ⟨around, t⟩ :: occurrencesAll (around ++ [t]) nested

def occurrencesAll (around : List TypeSymbol) : List TypeSymbol → List Occurrence
  | [] => []
  | t :: ts => occurrences around t ++ occurrencesAll around ts

end

theorem occurrences_eq (around : List TypeSymbol) (t : TypeSymbol) :
    t.occurrences around = ⟨around, t⟩ :: occurrencesAll (around ++ [t]) t.nested := by
  cases t
  rw [occurrences]

theorem occurrencesAll_eq_flatMap (around ts : List TypeSymbol) :
    occurrencesAll around ts = ts.flatMap fun t => t.occurrences around := by
  induction ts with
  | nil => rfl
  | cons t ts ih => rw [occurrencesAll, ih, List.flatMap_cons]

theorem gather_eq (floor : AccessFloor) (g : Gathered) (t : TypeSymbol) :
    gather floor g t = if t.drawn floor then gatherAll floor (g.add t) t.nested else g := by
  cases t
  rw [gather]

end TypeSymbol

namespace NamespaceTree

mutual

def occurrences : NamespaceTree → List Occurrence
  | ⟨_, types, children⟩ => TypeSymbol.occurrencesAll [] types ++ occurrencesAll children

def occurrencesAll : List NamespaceTree → List Occurrence
  | [] => []
  | ns :: rest => occurrences ns ++ occurrencesAll rest

end

end NamespaceTree

namespace Occurrence

def drawn (floor : AccessFloor) (o : Occurrence) : Bool :=
  o.symbol.drawn floor && o.around.all (TypeSymbol.drawn floor)

def drawnOf (floor : AccessFloor) (os : List Occurrence) : List TypeSymbol :=
  (os.filter (drawn floor)).map symbol

theorem drawnOf_append (floor : AccessFloor) (os os' : List Occurrence) :
    drawnOf floor (os ++ os') = drawnOf floor os ++ drawnOf floor os' := by
  simp [drawnOf]

theorem drawnOf_perm {os os' : List Occurrence} (floor : AccessFloor) (same : os.Perm os') :
    (drawnOf floor os).Perm (drawnOf floor os') :=
  (same.filter _).map _

end Occurrence

namespace TypeSymbol

open Occurrence (drawnOf drawnOf_append)

mutual

theorem around_subset (around : List TypeSymbol) (t : TypeSymbol) :
    ∀ o ∈ t.occurrences around, around ⊆ o.around := by
  match t with
  | ⟨name, scope, docId, kind, access, isAbstract, isSealed, isStatic, inSource, base,
      interfaces, nested⟩ =>
    intro o present
    rw [occurrences, List.mem_cons] at present
    rcases present with rfl | inside
    · exact List.Subset.refl _
    · exact List.Subset.trans (List.subset_append_left _ _)
        (around_subset_all _ nested o inside)

theorem around_subset_all (around : List TypeSymbol) (ts : List TypeSymbol) :
    ∀ o ∈ occurrencesAll around ts, around ⊆ o.around := by
  match ts with
  | [] => simp [occurrencesAll]
  | t :: ts =>
    intro o present
    rw [occurrencesAll, List.mem_append] at present
    rcases present with first | later
    · exact around_subset around t o first
    · exact around_subset_all around ts o later

end

theorem drawnOf_hidden {floor : AccessFloor} {around : List TypeSymbol} {t : TypeSymbol}
    (inside : t ∈ around) (hidden : t.drawn floor = false) (ts : List TypeSymbol) :
    drawnOf floor (occurrencesAll around ts) = [] := by
  rw [drawnOf, List.map_eq_nil_iff, List.filter_eq_nil_iff]
  intro o present shown
  have outer := around_subset_all around ts o present inside
  simp only [Occurrence.drawn, Bool.and_eq_true, List.all_eq_true] at shown
  rw [shown.2 t outer] at hidden
  exact Bool.noConfusion hidden

theorem drawnOf_occurrences {floor : AccessFloor} {around : List TypeSymbol}
    (shown : around.all (TypeSymbol.drawn floor) = true) (t : TypeSymbol) :
    drawnOf floor (t.occurrences around) =
      if t.drawn floor then t :: drawnOf floor (occurrencesAll (around ++ [t]) t.nested)
      else [] := by
  rw [occurrences_eq, drawnOf, List.filter_cons]
  by_cases self : t.drawn floor = true
  · simp [Occurrence.drawn, self, shown, drawnOf]
  · have hidden : t.drawn floor = false := by simpa using self
    have rest := drawnOf_hidden (List.mem_append_right around (List.mem_singleton_self t))
      hidden t.nested
    simpa [Occurrence.drawn, hidden, drawnOf] using rest

mutual

theorem gather_eq_foldl {floor : AccessFloor} {around : List TypeSymbol}
    (shown : around.all (TypeSymbol.drawn floor) = true) (t : TypeSymbol) (g : Gathered) :
    gather floor g t = (drawnOf floor (t.occurrences around)).foldl Gathered.add g := by
  match t with
  | ⟨name, scope, docId, kind, access, isAbstract, isSealed, isStatic, inSource, base,
      interfaces, nested⟩ =>
    rw [gather_eq, drawnOf_occurrences shown]
    -- A type that is not drawn cuts off all that is in it, on both sides.
    split
    next self =>
      rw [List.foldl_cons]
      exact gatherAll_eq_foldl (by simp [shown, self]) nested _
    next => rfl

theorem gatherAll_eq_foldl {floor : AccessFloor} {around : List TypeSymbol}
    (shown : around.all (TypeSymbol.drawn floor) = true) (ts : List TypeSymbol) (g : Gathered) :
    gatherAll floor g ts = (drawnOf floor (occurrencesAll around ts)).foldl Gathered.add g := by
  match ts with
  | [] => rfl
  | t :: ts =>
    rw [gatherAll, occurrencesAll, drawnOf_append, List.foldl_append, ← gather_eq_foldl shown t g]
    exact gatherAll_eq_foldl shown ts _

end

end TypeSymbol

namespace NamespaceTree

open Occurrence (drawnOf drawnOf_append)

/-- The type symbols of a tree that are drawn, in the order in which they are met. -/
def drawnSymbols (floor : AccessFloor) (ns : NamespaceTree) : List TypeSymbol :=
  drawnOf floor ns.occurrences

mutual

theorem gather_eq_foldl (floor : AccessFloor) (ns : NamespaceTree) (g : Gathered) :
    gather floor g ns = (ns.drawnSymbols floor).foldl Gathered.add g := by
  match ns with
  | ⟨name, types, children⟩ =>
    rw [gather, drawnSymbols, occurrences, drawnOf_append, List.foldl_append,
      ← TypeSymbol.gatherAll_eq_foldl (by simp) types g]
    exact gatherAll_eq_foldl floor children _

theorem gatherAll_eq_foldl (floor : AccessFloor) (rest : List NamespaceTree) (g : Gathered) :
    gatherAll floor g rest = (drawnOf floor (occurrencesAll rest)).foldl Gathered.add g := by
  match rest with
  | [] => rfl
  | ns :: rest =>
    rw [gatherAll, occurrencesAll, drawnOf_append, List.foldl_append]
    rw [gather_eq_foldl floor ns g]
    exact gatherAll_eq_foldl floor rest _

end

end NamespaceTree

theorem BuildUnit.project_eq {unit : BuildUnit} {tree : NamespaceTree}
    (compiled : unit.symbols = some tree) (floor : AccessFloor) :
    unit.project floor =
      let g := (tree.drawnSymbols floor).foldl Gathered.add .empty
      .ok ⟨unit.name, g.types, g.relations⟩ := by
  simp only [BuildUnit.project, compiled, NamespaceTree.gather_eq_foldl]

end ClassDiagram
