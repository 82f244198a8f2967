import ClassDiagram.Proofs.Extraction.Namespaces
import ClassDiagram.Proofs.Extraction.Types

/-! Where types are in a tree of namespaces. A namespace is reached by the names on the way to it,
and one addition changes what is at its own path and nothing else. So what a tree holds at a path
is told by the additions alone: the types that were added there, in their order, and below it the
names that were mentioned next, each where it was mentioned first. -/

namespace ClassDiagram.NamespaceTree

/-- The namespace that names lead to, from the outermost one down. -/
def at? : List String → NamespaceTree → Option NamespaceTree
  | [], ns => some ns
  | name :: path, ns => (ns.children.find? fun child => child.name = name).bind (at? path)

def typesAt (path : List String) (ns : NamespaceTree) : List TypeSymbol :=
  ((ns.at? path).map types).getD []

def namesAt (path : List String) (ns : NamespaceTree) : List String :=
  ((ns.at? path).map fun node => node.children.map NamespaceTree.name).getD []

/-- The name that a path mentions next, after the names in front. -/
def next? : List String → List String → Option String
  | [], path => path.head?
  | _ :: _, [] => none
  | first :: front, name :: path => if first = name then next? front path else none

/-- Puts a name at the end of those that are known, unless it is one of them. -/
def mention (known : List String) (name : String) : List String :=
  if name ∈ known then known else known ++ [name]

section

variable {name other : String} {edit : NamespaceTree → NamespaceTree}

theorem names_withChild (keeps : ∀ ns, (edit ns).name = ns.name) (children : List NamespaceTree) :
    (withChild name edit children).map NamespaceTree.name =
      mention (children.map NamespaceTree.name) name := by
  induction children with
  | nil => simp [withChild, mention, keeps, empty]
  | cons child rest ih =>
    unfold withChild
    by_cases self : child.name = name
    · simp [mention, self, keeps]
    · rw [if_neg self, List.map_cons, ih]
      by_cases known : name ∈ rest.map NamespaceTree.name <;> simp [mention, known, Ne.symm self]

theorem find?_withChild_self (keeps : ∀ ns, (edit ns).name = ns.name)
    (children : List NamespaceTree) :
    (withChild name edit children).find? (fun child => child.name = name) =
      some (edit ((children.find? fun child => child.name = name).getD (empty name))) := by
  induction children with
  | nil => simp [withChild, keeps, empty]
  | cons child rest ih =>
    unfold withChild
    by_cases self : child.name = name <;> simp [self, keeps, ih]

theorem find?_withChild_other (keeps : ∀ ns, (edit ns).name = ns.name) (ne : other ≠ name)
    (children : List NamespaceTree) :
    (withChild name edit children).find? (fun child => child.name = other) =
      children.find? fun child => child.name = other := by
  induction children with
  | nil => simp [withChild, keeps, empty, Ne.symm ne]
  | cons child rest ih =>
    unfold withChild
    by_cases self : child.name = name
    · simp [self, keeps, Ne.symm ne]
    · rw [if_neg self]
      by_cases here : child.name = other <;> simp [here, ih]

end

def child (name : String) (ns : NamespaceTree) : NamespaceTree :=
  (ns.children.find? fun child => child.name = name).getD (empty name)

section

variable {β : Type} {view : NamespaceTree → β} {blank : β}

theorem view_child (bare : ∀ name, view (empty name) = blank) (name : String)
    (front : List String) (ns : NamespaceTree) :
    (((ns.child name).at? front).map view).getD blank =
      ((ns.at? (name :: front)).map view).getD blank := by
  rw [at?, child]
  cases ns.children.find? fun child => child.name = name with
  | some child => rfl
  | none => cases front <;> simp [at?, empty, ← bare name]

end

theorem typesAt_child (name : String) (front : List String) (ns : NamespaceTree) :
    typesAt front (ns.child name) = typesAt (name :: front) ns :=
  view_child (fun _ => rfl) name front ns

theorem namesAt_child (name : String) (front : List String) (ns : NamespaceTree) :
    namesAt front (ns.child name) = namesAt (name :: front) ns :=
  view_child (fun _ => rfl) name front ns

variable (t : TypeSymbol)

theorem name_addAt (path : List String) (ns : NamespaceTree) :
    (addAt t path ns).name = ns.name := by
  cases path <;> rfl

theorem at?_addAt_self (name : String) (path front : List String) (ns : NamespaceTree) :
    (addAt t (name :: path) ns).at? (name :: front) = (addAt t path (ns.child name)).at? front := by
  rw [addAt, at?, find?_withChild_self (name_addAt t path)]
  rfl

theorem at?_addAt_other {name other : String} (ne : other ≠ name) (path front : List String)
    (ns : NamespaceTree) :
    (addAt t (name :: path) ns).at? (other :: front) = ns.at? (other :: front) := by
  rw [addAt, at?, at?, find?_withChild_other (name_addAt t path) ne]

theorem typesAt_addAt (path front : List String) (ns : NamespaceTree) :
    typesAt front (addAt t path ns) =
      if path = front then typesAt front ns ++ [t] else typesAt front ns := by
  induction path generalizing front ns with
  | nil => cases front <;> simp [typesAt, at?, addAt]
  | cons name path ih =>
    cases front with
    | nil => simp [typesAt, at?, addAt]
    | cons first front =>
      by_cases same : first = name
      · subst same
        rw [typesAt, at?_addAt_self, ← typesAt, ih, typesAt_child]
        simp
      · rw [typesAt, at?_addAt_other t same, ← typesAt, if_neg]
        exact fun equal => same (List.cons.inj equal).1.symm

theorem namesAt_addAt (path front : List String) (ns : NamespaceTree) :
    namesAt front (addAt t path ns) =
      (next? front path).toList.foldl mention (namesAt front ns) := by
  induction path generalizing front ns with
  | nil => cases front <;> rfl
  | cons name path ih =>
    cases front with
    | nil => exact names_withChild (name_addAt t path) ns.children
    | cons first front =>
      by_cases same : first = name
      · subst same
        rw [namesAt, at?_addAt_self, ← namesAt, ih, namesAt_child, next?, if_pos rfl]
      · rw [namesAt, at?_addAt_other t same, ← namesAt, next?, if_neg same]
        rfl

theorem isSome_at?_addAt (path front : List String) (ns : NamespaceTree) :
    ((addAt t path ns).at? front).isSome = true ↔
      (ns.at? front).isSome = true ∨ front <+: path := by
  induction path generalizing front ns with
  | nil => cases front <;> simp [at?, addAt]
  | cons name path ih =>
    cases front with
    | nil => simp [at?]
    | cons first front =>
      by_cases same : first = name
      · subst same
        rw [at?_addAt_self, ih, List.cons_prefix_cons, at?, child]
        cases ns.children.find? fun child => child.name = first with
        | some child => simp
        | none => cases front <;> simp [at?, empty]
      · rw [at?_addAt_other t same, List.cons_prefix_cons]
        simp [same]

/-- The tree that additions make, one after the other, each at a dotted path. -/
def ofAdditions (added : List (String × TypeSymbol)) : NamespaceTree :=
  added.foldl (fun tree a => tree.add a.1 a.2) (empty "")

theorem ofAdditions_concat (added : List (String × TypeSymbol)) (a : String × TypeSymbol) :
    ofAdditions (added ++ [a]) = addAt a.2 (namesOf a.1) (ofAdditions added) := by
  rw [ofAdditions, List.foldl_append]
  rfl

theorem typesAt_ofAdditions (added : List (String × TypeSymbol)) (path : List String) :
    typesAt path (ofAdditions added) =
      (added.filter fun a => namesOf a.1 = path).map Prod.snd := by
  induction added using List.reverseRecOn with
  | nil => cases path <;> rfl
  | append_singleton added a ih =>
    rw [ofAdditions_concat, typesAt_addAt, ih, List.filter_append, List.map_append]
    by_cases here : namesOf a.1 = path <;> simp [here]

theorem namesAt_ofAdditions (added : List (String × TypeSymbol)) (path : List String) :
    namesAt path (ofAdditions added) =
      (added.filterMap fun a => next? path (namesOf a.1)).eraseDups := by
  induction added using List.reverseRecOn with
  | nil => cases path <;> rfl
  | append_singleton added a ih =>
    rw [ofAdditions_concat, namesAt_addAt, ih, List.filterMap_append]
    cases mentioned : next? path (namesOf a.1) with
    | none => simp [mentioned]
    | some name =>
      simp only [List.filterMap_cons, mentioned, List.filterMap_nil, eraseDups_concat,
        Option.toList_some, List.foldl_cons, List.foldl_nil, mention, List.mem_eraseDups]

theorem isSome_at?_ofAdditions (added : List (String × TypeSymbol)) (path : List String) :
    ((ofAdditions added).at? path).isSome = true ↔
      path = [] ∨ ∃ a ∈ added, path <+: namesOf a.1 := by
  induction added using List.reverseRecOn with
  | nil => cases path <;> simp [ofAdditions, at?, empty]
  | append_singleton added a ih =>
    rw [ofAdditions_concat, isSome_at?_addAt, ih]
    simp [or_assoc, or_and_right, exists_or]

theorem next?_mem {front path : List String} {name : String}
    (mentioned : next? front path = some name) : name ∈ path := by
  induction front generalizing path with
  | nil => exact List.mem_of_head? mentioned
  | cons first front ih =>
    cases path with
    | nil => cases mentioned
    | cons other path =>
      rw [next?] at mentioned
      split at mentioned
      · exact List.mem_cons_of_mem _ (ih mentioned)
      · cases mentioned

theorem of_mem_namesOf {path name : String} (mem : name ∈ namesOf path) :
    name ≠ "" ∧ '.' ∉ name.toList := by
  obtain ⟨piece, some⟩ := List.mem_filter.mp mem
  exact ⟨by simpa using some, Text.notMem_of_mem_split piece⟩

end ClassDiagram.NamespaceTree
