import ClassDiagram.Toml.Assembly

/-! What a TOML document says, without how it looks, and how records are read from it. -/

namespace ClassDiagram.Toml

inductive Data where
  | text (content : String)
  | bool (b : Bool)
  | number
  | moment
  | list (items : List Data)
  | record (fields : List (String × Data))

namespace Data

def ofScalar : Scalar → Data
  | .text content => text content
  | .bool b => bool b
  | .number => number
  | .moment => moment

def text? : Data → Option String
  | text content => some content
  | _ => none

def bool? : Data → Option Bool
  | bool b => some b
  | _ => none

end Data

namespace Value

mutual

def data : Value → Data
  | scalar content _ _ => .ofScalar content
  | array items _ _ _ => .list (dataItems items)
  | inline _ _ entries _ => .record (dataEntries entries)

def dataItems : List Value → List Data
  | [] => []
  | v :: rest => data v :: dataItems rest

def dataEntries : List (Key × Value) → List (String × Data)
  | [] => []
  | (key, v) :: rest => (key.name, data v) :: dataEntries rest

end

end Value

mutual

def Item.data : Item → Data
  | .value v => v.data
  | .table t => t.data
  | .tables ts => .list (dataOfAll ts)

def Table.data : Table → Data
  | .mk _ entries => .record (dataOf entries)

def dataOf : Entries → List (String × Data)
  | [] => []
  | (key, item) :: rest => (key.name, item.data) :: dataOf rest

def dataOfAll : List Table → List Data
  | [] => []
  | t :: ts => t.data :: dataOfAll ts

end

namespace Data

/-- The fields of a record. A list gives them in their order; a moment is a record of which no
field is known. None where a value is not a record, or where a list lacks a field that has to be
given. -/
def fields? (names : List String) (required : Nat) : Data → Option (List (Option Data))
  | record fields => some (names.map fun name => fields.lookup name)
  | list items =>
    if required ≤ items.length then
      some ((items.take names.length).map some ++
        List.replicate (names.length - items.length) none)
    else none
  | moment => some (names.map fun _ => none)
  | _ => none

def optional {α : Type} (read : Data → Option α) : Option Data → Option (Option α)
  | none => some none
  | some data => (read data).map some

def fieldOr {α : Type} (default : α) (read : Data → Option α) : Option Data → Option α
  | none => some default
  | some data => read data

end Data

namespace Document

def dataOf? (text : String) : Option Data := (parse text).map fun d => d.root.data

end Document

end ClassDiagram.Toml
