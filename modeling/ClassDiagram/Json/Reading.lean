import ClassDiagram.Json.Token

/-! The tree of a JSON text, built from its tokens by a machine with a stack of the arrays and
objects that are still open. The depth of the text is not limited here. -/

namespace ClassDiagram.Json

/-- An open array or object, with what it holds so far, last entry first. -/
inductive Frame where
  | array (items : List Source)
  | object (members : List (Option String × Source))
  /-- An object whose last key waits for its value. -/
  | keyed (members : List (Option String × Source)) (key : Option String)

inductive Want where
  | value
  | firstItem
  | firstKey
  | key
  | colon
  | separator
  /-- The value of the whole text is complete. -/
  | nothing (whole : Source)

structure Builder where
  stack : List Frame
  want : Want

namespace Builder

def start : Builder := ⟨[], .value⟩

def give (value : Source) : List Frame → Option Builder
  | [] => some ⟨[], .nothing value⟩
  | .array items :: rest => some ⟨.array (value :: items) :: rest, .separator⟩
  | .keyed members key :: rest => some ⟨.object ((key, value) :: members) :: rest, .separator⟩
  | .object _ :: _ => none

def takesValue : Want → Bool
  | .value | .firstItem => true
  | _ => false

def step (b : Builder) (token : Token) : Option Builder :=
  match token, b.want, b.stack with
  | .openArray, want, stack =>
    if takesValue want then some ⟨.array [] :: stack, .firstItem⟩ else none
  | .openObject, want, stack =>
    if takesValue want then some ⟨.object [] :: stack, .firstKey⟩ else none
  | .closeArray, .firstItem, .array items :: rest => give (.array items.reverse) rest
  | .closeArray, .separator, .array items :: rest => give (.array items.reverse) rest
  | .closeObject, .firstKey, .object members :: rest => give (.object members.reverse) rest
  | .closeObject, .separator, .object members :: rest => give (.object members.reverse) rest
  | .comma, .separator, .array items :: rest => some ⟨.array items :: rest, .value⟩
  | .comma, .separator, .object members :: rest => some ⟨.object members :: rest, .key⟩
  | .text content, .firstKey, .object members :: rest =>
    some ⟨.keyed members content :: rest, .colon⟩
  | .text content, .key, .object members :: rest =>
    some ⟨.keyed members content :: rest, .colon⟩
  | .colon, .colon, stack => some ⟨stack, .value⟩
  | .text content, want, stack =>
    if takesValue want then give (.string content) stack else none
  | .word value, want, stack => if takesValue want then give value stack else none
  | _, _, _ => none

def whole? (b : Builder) : Option Source :=
  match b.want with
  | .nothing whole => some whole
  | _ => none

end Builder

def build? (tokens : List Token) : Option Source :=
  (tokens.foldlM Builder.step Builder.start).bind Builder.whole?

def read (text : String) : Option Source := (tokens? text).bind build?

end ClassDiagram.Json
