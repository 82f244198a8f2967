import ClassDiagram.Toml.Quoted

/-! The text between the parts of a TOML document: blanks, line ends and comments. Every reader
takes a part off the front of a text and returns the rest. -/

namespace ClassDiagram.Toml

def isBlank (c : Char) : Bool := c == ' ' || c == '\t'

def blanks (cs : List Char) : List Char × List Char := (cs.takeWhile isBlank, cs.dropWhile isBlank)

/-- The text after a line end; the end of the text ends a line as well. -/
def lineEnd? : List Char → Option (List Char)
  | [] => some []
  | '\n' :: rest => some rest
  | '\r' :: '\n' :: rest => some rest
  | _ => none

/-- Blanks, line ends and comments. A comment goes up to the end of its line. -/
def trivia (inComment : Bool) (reversed : List Char) : List Char → Option (List Char × List Char)
  | [] => some (reversed.reverse, [])
  | '\n' :: rest => trivia false ('\n' :: reversed) rest
  | '\r' :: '\n' :: rest => trivia false ('\n' :: '\r' :: reversed) rest
  | c :: rest =>
    if inComment then if isTextChar c then trivia true (c :: reversed) rest else none
    else if isBlank c then trivia false (c :: reversed) rest
    else if c = '#' then trivia true (c :: reversed) rest
    else some (reversed.reverse, c :: rest)

def lineTail (cs : List Char) : Option (List Char × List Char) :=
  let (before, rest) := blanks cs
  let comment := if rest.head? = some '#' then rest.takeWhile isTextChar else []
  (lineEnd? (rest.drop comment.length)).map fun rest => (before ++ comment, rest)

theorem blanks_le (cs : List Char) : (blanks cs).2.length ≤ cs.length :=
  (List.dropWhile_sublist isBlank).length_le

theorem trivia_le {inComment : Bool} {reversed cs inside rest : List Char}
    (read : trivia inComment reversed cs = some (inside, rest)) : rest.length ≤ cs.length := by
  fun_induction trivia inComment reversed cs <;> grind

theorem lineEnd?_le {cs rest : List Char} (read : lineEnd? cs = some rest) :
    rest.length ≤ cs.length := by
  unfold lineEnd? at read
  grind

theorem lineTail_le {cs inside rest : List Char} (read : lineTail cs = some (inside, rest)) :
    rest.length ≤ cs.length := by
  unfold lineTail at read
  simp only [Option.map_eq_some_iff, Prod.mk.injEq] at read
  obtain ⟨_, ended, _, rfl⟩ := read
  have := lineEnd?_le ended
  have := blanks_le cs
  simp only [List.length_drop] at *
  omega

end ClassDiagram.Toml
