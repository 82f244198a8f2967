import ClassDiagram.Dump.TypeDecl

/-! The interfaces that a type has in the end: its own, those of its interfaces, and those of
the types along its chain of bases. Every type that a dump knows has an entry in an index; of
several declarations of one identifier the first is the entry. -/

namespace ClassDiagram.Dump

/-- The direct relations of one type. -/
structure Entry where
  id : String
  base : Option TypeRef
  interfaces : List TypeRef

abbrev Index := List Entry

namespace Index

mutual

def ofType (scope : String) (containing : List String) : TypeDecl → Index
  | d@⟨_, _, _, _, _, _, _, _, _, _, _, _, nested⟩ =>
    ⟨d.idIn scope containing, d.base, d.interfaces⟩ ::
      ofTypes scope (containing ++ [d.name]) nested

def ofTypes (scope : String) (containing : List String) : List TypeDecl → Index
  | [] => []
  | d :: ds => ofType scope containing d ++ ofTypes scope containing ds

end

/-- Nested types are in the namespace of the type around them. -/
def ofDump (dump : Dump) : Index :=
  (dump.types ++ dump.references).flatMap fun d => ofType d.scope [] d

def entry? (index : Index) (id : String) : Option Entry := index.find? fun e => e.id = id

def unseen (index : Index) (seen : List String) : Index :=
  index.filter fun e => !seen.contains e.id

theorem unseen_cons (index : Index) (id : String) (seen : List String) :
    index.unseen (id :: seen) = (index.unseen seen).filter fun e => e.id ≠ id := by
  simp only [unseen, List.filter_filter]
  congr 1
  funext e
  by_cases h : e.id = id <;> simp [h]

theorem unseen_cons_le (index : Index) (id : String) (seen : List String) :
    (index.unseen (id :: seen)).length ≤ (index.unseen seen).length := by
  rw [unseen_cons]
  exact List.length_filter_le ..

theorem unseen_cons_lt {index : Index} {id : String} {seen : List String} {e : Entry}
    (found : index.entry? id = some e) (new : ¬seen.contains id) :
    (index.unseen (id :: seen)).length < (index.unseen seen).length := by
  have same : e.id = id := by simpa using List.find?_some found
  have known : e ∈ index.unseen seen := by
    simpa [unseen, same] using ⟨List.mem_of_find?_eq_some found, by simpa using new⟩
  rw [unseen_cons]
  exact List.length_filter_lt_length_iff_exists.mpr ⟨e, known, by simp [same]⟩

end Index

/-- The entries along a chain of bases, up to the root type, a type that is not known, or one
that was visited before. -/
def baseChain (index : Index) (visited : List String) (base : Option TypeRef) : List Entry :=
  match base with
  | some ⟨some id, false⟩ =>
    if new : visited.contains id then []
    else match found : index.entry? id with
      | none => []
      | some e =>
        have := Index.unseen_cons_lt found new
        e :: baseChain index (id :: visited) e.base
  | _ => []
termination_by (index.unseen visited).length

/-- The identifiers that references lead to, in the order in which they turn up, and the number
of references that lead nowhere. The interfaces of a type follow it at once. -/
def close (index : Index) (seen : List String) (unresolved : Nat) :
    List TypeRef → List String × Nat
  | [] => (seen.reverse, unresolved)
  | ⟨none, _⟩ :: rest => close index seen (unresolved + 1) rest
  | ⟨some id, _⟩ :: rest =>
    if new : seen.contains id then close index seen unresolved rest
    else match found : index.entry? id with
      | none =>
        have := Index.unseen_cons_le index id seen
        close index (id :: seen) unresolved rest
      | some e =>
        have := Index.unseen_cons_lt found new
        close index (id :: seen) unresolved (e.interfaces ++ rest)
termination_by refs => ((index.unseen seen).length, refs.length)
decreasing_by
  all_goals simp only [Prod.lex_def, List.length_cons, true_and]
  all_goals omega

def allInterfaces (index : Index) (base : Option TypeRef) (direct : List TypeRef) :
    List TypeRef :=
  let inherited := (baseChain index [] base).flatMap Entry.interfaces
  let (ids, unresolved) := close index [] 0 (direct ++ inherited)
  ids.map TypeRef.known ++ List.replicate unresolved .unresolved

end ClassDiagram.Dump
