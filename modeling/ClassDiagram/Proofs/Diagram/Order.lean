import ClassDiagram.Proofs.Extraction.Types
import Mathlib.Data.Prod.Lex
import Mathlib.Data.String.Basic

/-! The diagram does not show the order in which types are listed. Blocks and members are
sorted, members by a name and an identifier that no other type has, and a type is looked up by
its identifier. What is left is a function of the set of types and of the relations. -/

namespace ClassDiagram.Diagram

/-- Sorting forgets the order of a list whose members differ in what they are sorted by. -/
theorem mergeSort_eq_of_perm {α κ : Type} [LinearOrder κ] {le : α → α → Bool} (key : α → κ)
    (order : ∀ a b, le a b = true ↔ key a ≤ key b) {xs ys : List α}
    (separate : ∀ a ∈ xs, ∀ b ∈ xs, key a = key b → a = b) (perm : xs.Perm ys) :
    xs.mergeSort le = ys.mergeSort le := by
  have transitive : ∀ a b c, le a b = true → le b c = true → le a c = true := by
    intro a b c first second
    rw [order] at first second ⊢
    exact first.trans second
  have total : ∀ a b, (le a b || le b a) = true := by
    intro a b
    rw [Bool.or_eq_true, order, order]
    exact le_total _ _
  have sorted : ∀ zs : List α, (zs.mergeSort le).Pairwise fun a b => le a b = true :=
    List.pairwise_mergeSort transitive total
  have listed : (xs.mergeSort le).Perm (ys.mergeSort le) :=
    (List.mergeSort_perm xs le).trans (perm.trans (List.mergeSort_perm ys le).symm)
  refine listed.eq_of_pairwise ?_ (sorted xs) (sorted ys)
  intro a b inXs inYs less greater
  rw [order] at less greater
  have left : a ∈ xs := List.mem_mergeSort.mp inXs
  have right : b ∈ xs := perm.mem_iff.mpr (List.mem_mergeSort.mp inYs)
  exact separate a left b right (le_antisymm less greater)

def memberKey (t : DeclaredType) : String ×ₗ String := toLex (t.name, t.id)

theorem memberOrder_iff (a b : DeclaredType) :
    memberOrder a b = true ↔ memberKey a ≤ memberKey b := by
  simp only [memberOrder, memberKey, Prod.Lex.toLex_le_toLex, Bool.or_eq_true, Bool.and_eq_true,
    decide_eq_true_eq, beq_iff_eq]

theorem firsts_of_nodup {ts : List DeclaredType} (distinct : (ts.map DeclaredType.id).Nodup) :
    firsts ts = ts := by
  induction ts with
  | nil => rfl
  | cons t ts ih =>
    obtain ⟨new, rest⟩ := List.nodup_cons.mp distinct
    rw [firsts, ih rest]
    congr 1
    refine List.filter_eq_self.mpr fun other listed => decide_eq_true fun same => new ?_
    rw [← same]
    exact List.mem_map_of_mem listed

section Permutation

variable {ts ts' : List DeclaredType}

theorem scopes_eq_of_perm (perm : ts.Perm ts') : scopes ts = scopes ts' := by
  have once : ((ts.map DeclaredType.scope).eraseDups).Perm
      ((ts'.map DeclaredType.scope).eraseDups) := by
    refine (List.perm_ext_iff_of_nodup (nodup_eraseDups _) (nodup_eraseDups _)).mpr ?_
    intro scope
    rw [List.mem_eraseDups, List.mem_eraseDups]
    exact (perm.map DeclaredType.scope).mem_iff
  refine mergeSort_eq_of_perm (fun scope : String => scope) ?_ (fun _ _ _ _ same => same) once
  intro a b
  exact decide_eq_true_iff

theorem members_eq_of_perm (distinct : (ts.map DeclaredType.id).Nodup) (perm : ts.Perm ts')
    (scope : String) : members ts scope = members ts' scope := by
  refine mergeSort_eq_of_perm memberKey memberOrder_iff ?_ (perm.filter _)
  intro a left b right same
  rw [memberKey, memberKey, toLex_inj, Prod.mk.injEq] at same
  exact List.inj_on_of_nodup_map distinct (List.mem_of_mem_filter left)
    (List.mem_of_mem_filter right) same.2

theorem lookup_eq_of_perm (distinct : (ts.map DeclaredType.id).Nodup) (perm : ts.Perm ts')
    (id : String) : lookup id ts = lookup id ts' := by
  have distinct' : (ts'.map DeclaredType.id).Nodup :=
    (perm.map DeclaredType.id).nodup_iff.mp distinct
  cases found : lookup id ts with
  | none =>
    refine (List.find?_eq_none.mpr ?_).symm
    intro t listed
    exact List.find?_eq_none.mp found t (perm.mem_iff.mpr listed)
  | some t =>
    have listed : t ∈ ts' := perm.mem_iff.mp (List.mem_of_find?_eq_some found)
    have same : t.id = id := by simpa using List.find?_some found
    rw [← same]
    exact (Gathered.lookup_of_mem distinct' listed).symm

theorem edge_eq_of_perm (distinct : (ts.map DeclaredType.id).Nodup) (perm : ts.Perm ts') :
    edge ts = edge ts' := by
  funext r
  rw [edge, edge, lookup_eq_of_perm distinct perm, lookup_eq_of_perm distinct perm]

end Permutation

theorem lines_eq_of_perm {s s' : Solution} (distinct : (s.types.map DeclaredType.id).Nodup)
    (types : s.types.Perm s'.types)
    (relations : s.projects.map Project.relations = s'.projects.map Project.relations)
    (direction : Option Direction) : lines s direction = lines s' direction := by
  have distinct' : (s'.types.map DeclaredType.id).Nodup :=
    (types.map DeclaredType.id).nodup_iff.mp distinct
  have blocks : block s.types = block s'.types := by
    funext scope
    rw [block, block, members_eq_of_perm distinct types]
  have edges : ∀ s : Solution, s.projects.flatMap (edges s.types) =
      (s.projects.map Project.relations).flatMap fun rs =>
        (rs.mergeSort fun a b => a.source ≤ b.source).filterMap (edge s.types) := by
    intro s
    rw [List.flatMap_map]
    rfl
  simp only [lines, firsts_of_nodup distinct, firsts_of_nodup distinct', edges, relations,
    scopes_eq_of_perm types, blocks, edge_eq_of_perm distinct types]

end ClassDiagram.Diagram
