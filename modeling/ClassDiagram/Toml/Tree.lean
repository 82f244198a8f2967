/-! TOML documents as they were written: values, keys and tables, each with the text around it
and, where it was read and not made, its own spelling. What a document says is found by the
names of keys; how it looks is what the rest is kept for. -/

namespace ClassDiagram.Toml

/-- The text before and after a part; none where a part has no layout of its own. -/
structure Decor where
  before : Option String
  after : Option String

namespace Decor

def none : Decor := ⟨.none, .none⟩

def empty : Decor := ⟨some "", some ""⟩

def around (before after : String) : Decor := ⟨some before, some after⟩

end Decor

structure Key where
  name : String
  /-- The key as it was written; none for a new key. -/
  spelling : Option String
  /-- The layout around the key, where the key is the last one of a dotted key. -/
  leaf : Decor
  /-- The layout around the key, between the dots of a dotted key. -/
  dotted : Decor

namespace Key

def new (name : String) : Key := ⟨name, none, .none, .none⟩

end Key

inductive Scalar where
  | text (content : String)
  | bool (b : Bool)
  | number
  /-- A date, a time, or both. -/
  | moment
  deriving DecidableEq

inductive Value where
  | scalar (content : Scalar) (spelling : Option String) (decor : Decor)
  | array (items : List Value) (comma : Bool) (trailing : String) (decor : Decor)
  | inline (dotted : Bool) (preamble : String) (entries : List (Key × Value)) (decor : Decor)

namespace Value

def withDecor (decor : Decor) : Value → Value
  | scalar content spelling _ => scalar content spelling decor
  | array items comma trailing _ => array items comma trailing decor
  | inline dotted preamble entries _ => inline dotted preamble entries decor

def new (content : Scalar) : Value := scalar content none .none

def text? : Value → Option String
  | scalar (.text content) _ _ => some content
  | _ => none

def bool? : Value → Option Bool
  | scalar (.bool b) _ _ => some b
  | _ => none

end Value

structure TableStyle where
  /-- Whether the table is there only as the parent of another one. -/
  implicit : Bool
  /-- Whether the table comes from a dotted key. -/
  dotted : Bool
  /-- The layout around the header. -/
  decor : Decor
  /-- The place of the header among the headers. -/
  position : Option Nat

mutual

inductive Item where
  | value (v : Value)
  | table (t : Table)
  | tables (ts : List Table)

inductive Table where
  | mk (style : TableStyle) (entries : List (Key × Item))

end

abbrev Entries := List (Key × Item)

namespace Entries

def find? (name : String) : Entries → Option Item
  | [] => none
  | (key, item) :: rest => if key.name = name then some item else find? name rest

def replace (name : String) (item : Item) : Entries → Entries
  | [] => []
  | (key, old) :: rest =>
    if key.name = name then (key, item) :: rest else (key, old) :: replace name item rest

/-- Puts an item under a name. A key that is there already loses its spelling and layout; a new
one goes to the end. -/
def insert (name : String) (item : Item) : Entries → Entries
  | [] => [(.new name, item)]
  | (key, old) :: rest =>
    if key.name = name then (.new name, item) :: rest else (key, old) :: insert name item rest

def remove (name : String) (entries : Entries) : Entries :=
  entries.filter fun e => e.1.name ≠ name

theorem find?_insert_self (name : String) (item : Item) (entries : Entries) :
    find? name (insert name item entries) = some item := by
  induction entries with
  | nil => simp [insert, find?, Key.new]
  | cons e rest ih =>
    obtain ⟨key, old⟩ := e
    by_cases h : key.name = name <;> simp [insert, find?, Key.new, h, ih]

theorem find?_insert_other {name other : String} (ne : other ≠ name) (item : Item)
    (entries : Entries) : find? other (insert name item entries) = find? other entries := by
  induction entries with
  | nil => simp [insert, find?, Key.new, Ne.symm ne]
  | cons e rest ih =>
    obtain ⟨key, old⟩ := e
    by_cases h : key.name = name
    · simp [insert, find?, Key.new, h, Ne.symm ne]
    · by_cases h' : key.name = other
      · subst h'
        simp [insert, find?, h]
      · simp [insert, find?, h, h', ih]

theorem find?_replace_self {name : String} {entries : Entries} {old : Item}
    (found : find? name entries = some old) (item : Item) :
    find? name (replace name item entries) = some item := by
  induction entries with
  | nil => cases found
  | cons e rest ih =>
    obtain ⟨key, first⟩ := e
    by_cases h : key.name = name
    · simp [replace, find?, h]
    · simp only [find?, if_neg h] at found
      simp [replace, find?, h, ih found]

theorem find?_replace_other {name other : String} (ne : other ≠ name) (item : Item)
    (entries : Entries) : find? other (replace name item entries) = find? other entries := by
  induction entries with
  | nil => rfl
  | cons e rest ih =>
    obtain ⟨key, first⟩ := e
    by_cases h : key.name = name
    · simp [replace, find?, h, Ne.symm ne]
    · by_cases h' : key.name = other
      · subst h'
        simp [replace, find?, h]
      · simp [replace, find?, h, h', ih]

theorem find?_remove_other {name other : String} (ne : other ≠ name) (entries : Entries) :
    find? other (remove name entries) = find? other entries := by
  induction entries with
  | nil => rfl
  | cons e rest ih =>
    by_cases h : e.1.name = name
    · simpa [remove, List.filter_cons, h, find?, Ne.symm ne] using ih
    · by_cases h' : e.1.name = other
      · subst h'
        simp [remove, h, find?]
      · simpa [remove, List.filter_cons, h, h', find?] using ih

theorem find?_remove_self (name : String) (entries : Entries) :
    find? name (remove name entries) = none := by
  induction entries with
  | nil => rfl
  | cons e rest ih =>
    by_cases h : e.1.name = name
    · simpa [remove, List.filter_cons, h] using ih
    · simpa [remove, List.filter_cons, h, find?] using ih

end Entries

namespace Item

def table? : Item → Option Table
  | table t => some t
  | _ => none

def text? : Item → Option String
  | value v => v.text?
  | _ => none

def bool? : Item → Option Bool
  | value v => v.bool?
  | _ => none

end Item

namespace Table

def style : Table → TableStyle
  | mk style _ => style

def entries : Table → Entries
  | mk _ entries => entries

def empty (implicit dotted : Bool) : Table := mk ⟨implicit, dotted, .none, none⟩ []

def find? (name : String) (t : Table) : Option Item := t.entries.find? name

def mapEntries (f : Entries → Entries) (t : Table) : Table := mk t.style (f t.entries)

def replace (name : String) (item : Item) (t : Table) : Table := t.mapEntries (·.replace name item)

def insert (name : String) (item : Item) (t : Table) : Table := t.mapEntries (·.insert name item)

def remove (name : String) (t : Table) : Table := t.mapEntries (·.remove name)

def append (key : Key) (item : Item) (t : Table) : Table := t.mapEntries (· ++ [(key, item)])

end Table

structure Document where
  root : Table
  /-- The blank lines and comments after the last entry. -/
  trailing : String

end ClassDiagram.Toml
