/-! A tree of files as a list of entries, each with its location: the names from the root
down. The root is a folder and has no entry. What the tree holds at a location is `find?`;
`place` and `erase` change it there and nowhere else. -/

namespace ClassDiagram.Files

abbrev Bytes := List UInt8

abbrev Location := List String

inductive Entry where
  | file (bytes : Bytes)
  | folder
  deriving DecidableEq

structure Tree where
  entries : List (Location × Entry)

namespace Tree

def empty : Tree := ⟨[]⟩

def findIn (loc : Location) : List (Location × Entry) → Option Entry
  | [] => none
  | (l, e) :: rest => if l = loc then some e else findIn loc rest

def find? (t : Tree) (loc : Location) : Option Entry :=
  if loc = [] then some .folder else findIn loc t.entries

def placeIn (loc : Location) (entry : Entry) :
    List (Location × Entry) → List (Location × Entry)
  | [] => [(loc, entry)]
  | (l, e) :: rest => if l = loc then (l, entry) :: rest else (l, e) :: placeIn loc entry rest

def place (t : Tree) (loc : Location) (entry : Entry) : Tree :=
  ⟨placeIn loc entry t.entries⟩

def erase (t : Tree) (loc : Location) : Tree := ⟨t.entries.filter fun e => e.1 ≠ loc⟩

def prune (t : Tree) (loc : Location) : Tree :=
  ⟨t.entries.filter fun e => !loc.isPrefixOf e.1⟩

def inFolder (name : String) : List (Location × Entry) → List (Location × Entry)
  | [] => []
  | (first :: second :: rest, e) :: es =>
    if first = name then (second :: rest, e) :: inFolder name es else inFolder name es
  | _ :: es => inFolder name es

def nameBelow? (loc entry : Location) : Option String :=
  if loc.isPrefixOf entry then
    match entry.drop loc.length with
    | [name] => some name
    | _ => none
  else none

def names (t : Tree) (loc : Location) : List String :=
  t.entries.filterMap fun e => nameBelow? loc e.1

theorem findIn_placeIn_self (loc : Location) (entry : Entry) (es : List (Location × Entry)) :
    findIn loc (placeIn loc entry es) = some entry := by
  induction es with
  | nil => simp [placeIn, findIn]
  | cons e es ih =>
    obtain ⟨l, x⟩ := e
    by_cases h : l = loc <;> simp [placeIn, findIn, h, ih]

theorem findIn_placeIn_other {loc other : Location} (ne : other ≠ loc) (entry : Entry)
    (es : List (Location × Entry)) :
    findIn other (placeIn loc entry es) = findIn other es := by
  induction es with
  | nil => simp [placeIn, findIn, Ne.symm ne]
  | cons e es ih =>
    obtain ⟨l, x⟩ := e
    by_cases h : l = loc
    · subst h
      simp [placeIn, findIn, Ne.symm ne]
    · by_cases h' : l = other
      · subst h'
        simp [placeIn, findIn, h]
      · simp [placeIn, findIn, h, h', ih]

theorem find?_place_self (t : Tree) {loc : Location} (ne : loc ≠ []) (entry : Entry) :
    (t.place loc entry).find? loc = some entry := by
  simp [find?, place, ne, findIn_placeIn_self]

theorem find?_place_other (t : Tree) {loc other : Location} (ne : other ≠ loc)
    (entry : Entry) : (t.place loc entry).find? other = t.find? other := by
  simp [find?, place, findIn_placeIn_other ne]

theorem findIn_inFolder (name second : String) (rest : Location) (es : List (Location × Entry)) :
    findIn (second :: rest) (inFolder name es) = findIn (name :: second :: rest) es := by
  induction es with
  | nil => rfl
  | cons e es ih =>
    obtain ⟨loc, entry⟩ := e
    match loc with
    | [] | [_] => simpa [inFolder, findIn] using ih
    | first :: next :: more =>
      by_cases h : first = name <;> simp [inFolder, findIn, h, ih]

end Tree

end ClassDiagram.Files
