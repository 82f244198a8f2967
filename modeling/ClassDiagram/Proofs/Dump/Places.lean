import ClassDiagram.Proofs.Dump.Rearrangement

/-! The declarations of a dump where they stand, each of them before those that are nested in it.
The entries of the index and the type symbols follow them one by one, in this order; so the symbol
of a declaration has the identifier of its entry, and what the index answers is the first
declaration of an identifier. -/

namespace ClassDiagram

/-- A declaration in a namespace, and the names of the types around it, the outermost one first. -/
structure Place where
  scope : String
  containing : List String
  decl : TypeDecl

namespace Place

def id (p : Place) : String := p.decl.idIn p.scope p.containing

def entry (p : Place) : Dump.Entry := ⟨p.id, p.decl.base, p.decl.interfaces⟩

def symbol (index : Dump.Index) (p : Place) : TypeSymbol :=
  p.decl.symbol index p.scope p.containing

theorem find?_of_count_eq_one {p : Place} {ps : List Place} (present : p ∈ ps)
    (once : (ps.map Place.id).count p.id = 1) : (ps.find? fun q => q.id = p.id) = some p := by
  rw [List.count, List.countP_map, List.countP_eq_length_filter, List.length_eq_one_iff] at once
  obtain ⟨q, alone⟩ := once
  have listed : p ∈ ps.filter ((· == p.id) ∘ Place.id) := by simpa using present
  obtain rfl : p = q := by simpa [alone] using listed
  rw [← List.head?_filter]
  have same : (fun q : Place => decide (q.id = p.id)) = (· == p.id) ∘ Place.id := by
    funext q
    simp [Bool.beq_eq_decide_eq]
  rw [same, alone]
  rfl

end Place

namespace TypeSymbol

def preorder (t : TypeSymbol) : List TypeSymbol := (t.occurrences []).map Occurrence.symbol

end TypeSymbol

namespace TypeDecl

open TypeSymbol (occurrences occurrencesAll)

mutual

def places (scope : String) (containing : List String) : TypeDecl → List Place
  | d@⟨name, _, _, _, _, _, _, _, _, _, _, _, nested⟩ =>
    ⟨scope, containing, d⟩ :: placesAll scope (containing ++ [name]) nested

def placesAll (scope : String) (containing : List String) : List TypeDecl → List Place
  | [] => []
  | d :: ds => places scope containing d ++ placesAll scope containing ds

end

mutual

theorem entries_places (scope : String) (containing : List String) (d : TypeDecl) :
    (d.places scope containing).map Place.entry = Dump.Index.ofType scope containing d := by
  match d with
  | ⟨name, _, _, _, _, _, _, _, _, _, _, _, nested⟩ =>
    rw [places, Dump.Index.ofType, List.map_cons,
      entries_placesAll scope (containing ++ [name]) nested]
    rfl

theorem entries_placesAll (scope : String) (containing : List String) (ds : List TypeDecl) :
    (placesAll scope containing ds).map Place.entry = Dump.Index.ofTypes scope containing ds := by
  match ds with
  | [] => rfl
  | d :: ds =>
    rw [placesAll, Dump.Index.ofTypes, List.map_append, entries_places scope containing d,
      entries_placesAll scope containing ds]

end

section

variable (index : Dump.Index) (scope : String)

mutual

/-- The symbols around an occurrence do not reach its own symbol, hence any `around`. -/
theorem symbols_places (containing : List String) (around : List TypeSymbol) (d : TypeDecl) :
    ((d.symbol index scope containing).occurrences around).map Occurrence.symbol =
      (d.places scope containing).map (Place.symbol index) := by
  match d with
  | ⟨name, _, _, _, _, _, _, _, _, _, _, _, nested⟩ =>
    rw [TypeSymbol.occurrences_eq, symbol_nested, places, List.map_cons, List.map_cons,
      symbols_placesAll (containing ++ [name]) _ nested]
    rfl

theorem symbols_placesAll (containing : List String) (around : List TypeSymbol)
    (ds : List TypeDecl) :
    (occurrencesAll around (symbols index scope containing ds)).map Occurrence.symbol =
      (placesAll scope containing ds).map (Place.symbol index) := by
  match ds with
  | [] => rfl
  | d :: ds =>
    rw [symbols, occurrencesAll, placesAll, List.map_append, List.map_append,
      symbols_places containing around d, symbols_placesAll containing around ds]

end

theorem preorder_symbol (containing : List String) (d : TypeDecl) :
    (d.symbol index scope containing).preorder =
      (d.places scope containing).map (Place.symbol index) :=
  symbols_places index scope containing [] d

end

end TypeDecl

namespace Dump

/-- The declarations of the types, references left out. -/
def places (dump : Dump) : List Place := dump.types.flatMap fun d => d.places d.scope []

def referencePlaces (dump : Dump) : List Place :=
  dump.references.flatMap fun d => d.places d.scope []

section

variable (dump : Dump)

theorem declared_eq_places : dump.declared = dump.places.map Place.entry := by
  rw [declared, places, List.map_flatMap]
  simp only [TypeDecl.entries_places]

theorem ids_declared : dump.declared.map Entry.id = dump.places.map Place.id := by
  rw [declared_eq_places, List.map_map]
  rfl

theorem ofDump_eq_places :
    Index.ofDump dump = (dump.places ++ dump.referencePlaces).map Place.entry := by
  rw [ofDump_eq, declared_eq_places, referencePlaces, List.map_append, List.map_flatMap]
  simp only [TypeDecl.entries_places]

theorem entry?_ofDump (id : String) :
    Index.entry? (Index.ofDump dump) id =
      ((dump.places ++ dump.referencePlaces).find? fun p => p.id = id).map Place.entry := by
  rw [ofDump_eq_places, Index.entry?, List.find?_map]
  rfl

end

end Dump

end ClassDiagram
