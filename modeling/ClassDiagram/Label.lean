import ClassDiagram.Text.Blank
import ClassDiagram.Text.Split
import ClassDiagram.TypeGraph

/-! The names that a diagram shows. In them a colon is written twice and a backtick is left
out, since the diagram's grammar quotes with backticks. -/

namespace ClassDiagram.Label

def escapeChar : Char → List Char
  | '\x60' => []
  | ':' => [':', ':']
  | c => [c]

def escape (text : String) : String := String.ofList (text.toList.flatMap escapeChar)

/-- The label of an identifier that no project declares: the part after its last colon, with
two colons for each dot. -/
def external (id : String) : String :=
  let last := (Text.afterLast ':' id.toList).map fun c => if c = '.' then ':' else c
  escape (String.ofList last)

def globalScope : String := "Global"

def scope (path : String) : String :=
  if Text.trim path = "" then globalScope else escape path

def qualified (t : DeclaredType) : String := scope t.scope ++ "::" ++ t.name

theorem escapeChar_plain {c : Char} (notQuote : c ≠ '\x60') (notColon : c ≠ ':') :
    escapeChar c = [c] := by
  unfold escapeChar
  split <;> simp_all

end ClassDiagram.Label
