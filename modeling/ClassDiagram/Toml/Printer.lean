import ClassDiagram.Toml.Spelling

/-! The text of a TOML document. What was read is written as it stood, what is new takes the
usual layout; carriage returns around keys and values are left out. Tables are written in the
order of their headers, a new one right after the one before it in the tree. -/

namespace ClassDiagram.Toml

/-- The layout of a part that has none of its own. -/
structure Usual where
  before : String
  after : String

def withoutReturns (text : String) : String := String.ofList (text.toList.filter (· ≠ '\r'))

namespace Decor

def left (d : Decor) (usual : Usual) : String := withoutReturns (d.before.getD usual.before)

def right (d : Decor) (usual : Usual) : String := withoutReturns (d.after.getD usual.after)

def wrap (d : Decor) (usual : Usual) (text : String) : String :=
  d.left usual ++ text ++ d.right usual

end Decor

def Usual.tight : Usual := ⟨"", ""⟩

def Usual.spaceBefore : Usual := ⟨" ", ""⟩

def Usual.spaceAfter : Usual := ⟨"", " "⟩

def Usual.spaced : Usual := ⟨" ", " "⟩

namespace Key

def text (key : Key) : String := key.spelling.getD (String.ofList (spellKey key.name.toList))

end Key

def dottedTail : List Key → String
  | [] => ""
  | [key] => "." ++ key.dotted.left .tight ++ key.text
  | key :: rest => "." ++ key.dotted.wrap .tight key.text ++ dottedTail rest

/-- A dotted key. The layout around the whole is that of its last key. -/
def pathText (usual : Usual) (path : List Key) : String :=
  match path with
  | [] => ""
  | [key] => key.leaf.wrap usual key.text
  | key :: rest =>
    let last := rest.getLastD key
    last.leaf.wrap usual (key.text ++ key.dotted.right .tight ++ dottedTail rest)

def joinItems : List (Usual → String) → String
  | [] => ""
  | first :: rest => first .tight ++ String.join (rest.map fun item => "," ++ item .spaceBefore)

/-- Pairs with commas between them; a blank is usual before the closing brace. -/
def joinPairs : List (List Key × (Usual → String)) → String
  | [] => ""
  | [(path, v)] => pathText .spaced path ++ "=" ++ v .spaced
  | (path, v) :: rest => pathText .spaced path ++ "=" ++ v .spaceBefore ++ "," ++ joinPairs rest

namespace Value

def isDotted : Value → Bool
  | inline dotted _ _ _ => dotted
  | _ => false

mutual

def text : Value → Usual → String
  | scalar content spelling decor, usual =>
    decor.wrap usual (spelling.getD (String.ofList (spellScalar content)))
  | array items comma trailing decor, usual =>
    let comma := if comma then "," else ""
    decor.wrap usual ("[" ++ joinItems (itemTexts items) ++ comma ++ withoutReturns trailing ++ "]")
  | inline _ preamble entries decor, usual =>
    decor.wrap usual
      ("\x7b" ++ withoutReturns preamble ++ joinPairs (entryTexts [] entries) ++ "\x7d")

def itemTexts : List Value → List (Usual → String)
  | [] => []
  | v :: rest => text v :: itemTexts rest

/-- Tables that come from dotted keys are written as dotted keys. -/
def entryTexts (path : List Key) : List (Key × Value) → List (List Key × (Usual → String))
  | [] => []
  | (key, v) :: rest =>
    (if v.isDotted then dottedTexts (path ++ [key]) v else [(path ++ [key], text v)]) ++
      entryTexts path rest

def dottedTexts (path : List Key) : Value → List (List Key × (Usual → String))
  | inline _ _ entries _ => entryTexts path entries
  | _ => []

end

end Value

mutual

/-- The values of a table under their dotted keys, with what they are written as. -/
def Table.lines (path : List Key) : Table → List (List Key × (Usual → String))
  | .mk _ entries => linesOf path entries

def linesOf (path : List Key) : Entries → List (List Key × (Usual → String))
  | [] => []
  | (key, item) :: rest => item.lines (path ++ [key]) ++ linesOf path rest

def Item.lines (path : List Key) : Item → List (List Key × (Usual → String))
  | .value v => if v.isDotted then v.dottedTexts path else [(path, v.text)]
  | .table t => if t.style.dotted then t.lines path else []
  | .tables _ => []

end

/-- A table with a header of its own, as it stands in the tree. -/
structure Section where
  path : List Key
  isArray : Bool
  style : TableStyle
  lines : List (List Key × (Usual → String))

mutual

def Table.sections (path : List Key) (isArray : Bool) : Table → List Section
  | t@(.mk style entries) =>
    let own := if style.dotted then [] else [⟨path, isArray, style, t.lines []⟩]
    own ++ sectionsOf path entries

def sectionsOf (path : List Key) : Entries → List Section
  | [] => []
  | (key, item) :: rest => item.sections (path ++ [key]) ++ sectionsOf path rest

def Item.sections (path : List Key) : Item → List Section
  | .value _ => []
  | .table t => t.sections path false
  | .tables ts => sectionsOfAll path ts

def sectionsOfAll (path : List Key) : List Table → List Section
  | [] => []
  | t :: ts => t.sections path true ++ sectionsOfAll path ts

end

/-- Numbers sections by the places of their headers; one without takes that of the section before
it. -/
def numbered (last : Nat) : List Section → List (Nat × Section)
  | [] => []
  | s :: rest =>
    let place := s.style.position.getD last
    (place, s) :: numbered place rest

def ordered (sections : List Section) : List Section :=
  ((numbered 0 sections).mergeSort fun a b => a.1 ≤ b.1).map Prod.snd

namespace Section

def body (s : Section) : String :=
  String.join (s.lines.map fun (path, v) =>
    pathText .spaceAfter path ++ "=" ++ v .spaceBefore ++ "
")

/-- A table that is there only as a parent has no header, unless it holds values. -/
def isVisible (s : Section) : Bool := s.isArray || !(s.style.implicit && s.lines.isEmpty)

/-- The header line. A blank line is usual before it, but not at the start of the document. -/
def header (first : Bool) (s : Section) : String :=
  let name := pathText .tight s.path
  let name := if s.isArray then "[[" ++ name ++ "]]" else "[" ++ name ++ "]"
  s.style.decor.wrap ⟨if first then "" else "
", ""⟩ name ++ "
"

/-- Writes sections; `first` tells that nothing has been written yet. -/
def write (first : Bool) : List Section → String
  | [] => ""
  | s :: rest =>
    if s.path.isEmpty then s.body ++ write (first && s.lines.isEmpty) rest
    else if s.isVisible then s.header first ++ s.body ++ write false rest
    else s.body ++ write first rest

end Section

namespace Document

def text (d : Document) : String :=
  Section.write true (ordered (d.root.sections [] false)) ++ withoutReturns d.trailing

end Document

end ClassDiagram.Toml
