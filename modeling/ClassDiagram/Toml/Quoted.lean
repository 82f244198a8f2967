import ClassDiagram.Text.Hex

/-! The strings of TOML. A string is written between single marks on one line, or between
triple ones over several; between quotation marks a backslash opens an escape, between
apostrophes nothing does. Reading takes the lexeme first and then its content. -/

namespace ClassDiagram.Toml

/-- A character beyond ASCII, or a printable one, or a tab. -/
def isTextChar (c : Char) : Bool :=
  c == '\t' || (0x20 ≤ c.toNat && c.toNat ≠ 0x7F)

def foldLines : List Char → List Char
  | [] => []
  | '\r' :: '\n' :: rest => '\n' :: foldLines rest
  | c :: rest => c :: foldLines rest

def scanLine (mark : Char) (escapes : Bool) (reversed : List Char) :
    List Char → Option (List Char × List Char)
  | [] => none
  | [c] => if c = mark then some (reversed.reverse, []) else none
  | c :: d :: rest =>
    if c = mark then some (reversed.reverse, d :: rest)
    else if escapes && c = '\\' then scanLine mark escapes (d :: c :: reversed) rest
    else scanLine mark escapes (c :: reversed) (d :: rest)

/-- The inside of a string between triple marks. Up to two more marks right before the closing
ones belong to the inside. -/
def scanLines (mark : Char) (escapes : Bool) (reversed : List Char) :
    List Char → Option (List Char × List Char)
  | c :: d :: e :: rest =>
    if c = mark && d = mark && e = mark then
      let more := (rest.take 2).takeWhile (· = mark)
      some (reversed.reverse ++ more, rest.drop more.length)
    else if escapes && c = '\\' then scanLines mark escapes (d :: c :: reversed) (e :: rest)
    else scanLines mark escapes (c :: reversed) (d :: e :: rest)
  | _ => none

theorem scanLine_le {mark : Char} {escapes : Bool} {reversed cs inside rest : List Char}
    (scanned : scanLine mark escapes reversed cs = some (inside, rest)) :
    rest.length ≤ cs.length := by
  fun_induction scanLine mark escapes reversed cs <;> grind

theorem scanLines_le {mark : Char} {escapes : Bool} {reversed cs inside rest : List Char}
    (scanned : scanLines mark escapes reversed cs = some (inside, rest)) :
    rest.length ≤ cs.length := by
  fun_induction scanLines mark escapes reversed cs <;> grind [List.length_drop]

inductive EscapeMode where
  | plain
  | escape
  /-- Inside the digits of a code point. -/
  | point (value left : Nat)
  /-- After a backslash at the end of a line: blanks are skipped, once a line has ended. -/
  | fold (ended : Bool)

structure Unescaper where
  mode : EscapeMode
  /-- The content so far, last character first. -/
  reversed : List Char

namespace Unescaper

def start : Unescaper := ⟨.plain, []⟩

def isBlank (c : Char) : Bool := c == ' ' || c == '\t'

def escaped? : Char → Option Char
  | 'b' => some '\x08'
  | 't' => some '\t'
  | 'n' => some '\n'
  | 'f' => some '\x0c'
  | 'r' => some '\r'
  | '"' => some '"'
  | '\\' => some '\\'
  | _ => none

def plain (multiline : Bool) (reversed : List Char) (c : Char) : Option Unescaper :=
  if c = '\\' then some ⟨.escape, reversed⟩
  else if isTextChar c || (multiline && c = '\n') then some ⟨.plain, c :: reversed⟩
  else none

def step (multiline : Bool) (u : Unescaper) (c : Char) : Option Unescaper :=
  match u.mode with
  | .plain => plain multiline u.reversed c
  | .escape =>
    if c = 'u' then some ⟨.point 0 4, u.reversed⟩
    else if c = 'U' then some ⟨.point 0 8, u.reversed⟩
    else if multiline && c = '\n' then some ⟨.fold true, u.reversed⟩
    else if multiline && isBlank c then some ⟨.fold false, u.reversed⟩
    else (escaped? c).map fun c => ⟨.plain, c :: u.reversed⟩
  | .point value left =>
    (Text.hexValue? c).bind fun digit =>
      let value := 16 * value + digit
      if 1 < left then some ⟨.point value (left - 1), u.reversed⟩
      else if value.isValidChar then some ⟨.plain, Char.ofNat value :: u.reversed⟩
      else none
  | .fold ended =>
    if c = '\n' then some ⟨.fold true, u.reversed⟩
    else if isBlank c then some u
    else if ended then plain multiline u.reversed c
    else none

def finish (u : Unescaper) : Option String :=
  match u.mode with
  | .plain | .fold true => some (String.ofList u.reversed.reverse)
  | _ => none

end Unescaper

def unescape (multiline : Bool) (inside : List Char) : Option String :=
  (inside.foldlM (Unescaper.step multiline) Unescaper.start).bind Unescaper.finish

def verbatim (multiline : Bool) (inside : List Char) : Option String :=
  if inside.all fun c => isTextChar c || (multiline && c == '\n') then
    some (String.ofList inside)
  else none

def dropFirstLineEnd : List Char → List Char
  | '\n' :: rest => rest
  | cs => cs

/-- A part of a text, with what it stands for and how it was written. -/
structure Lexeme where
  content : String
  spelling : List Char

/-- Only between quotation marks does a backslash mean more than itself. -/
def hasEscapes (mark : Char) : Bool := mark == '"'

def content? (mark : Char) (multiline : Bool) (inside : List Char) : Option String :=
  if hasEscapes mark then unescape multiline inside else verbatim multiline inside

def quotedLine (mark : Char) (cs : List Char) : Option (Lexeme × List Char) :=
  match scanLine mark (hasEscapes mark) [] cs with
  | none => none
  | some (inside, rest) =>
    (content? mark false inside).map fun content =>
      (⟨content, mark :: inside ++ [mark]⟩, rest)

def quotedLines (mark : Char) (cs : List Char) : Option (Lexeme × List Char) :=
  match scanLines mark (hasEscapes mark) [] cs with
  | none => none
  | some (inside, rest) =>
    (content? mark true (dropFirstLineEnd (foldLines inside))).map fun content =>
      (⟨content, [mark, mark, mark] ++ inside ++ [mark, mark, mark]⟩, rest)

def quotedKey? : List Char → Option (Lexeme × List Char)
  | c :: rest => if c = '"' || c = '\'' then quotedLine c rest else none
  | [] => none

def quoted? : List Char → Option (Lexeme × List Char)
  | c :: d :: e :: rest =>
    if (c = '"' || c = '\'') && d = c && e = c then quotedLines c rest
    else quotedKey? (c :: d :: e :: rest)
  | cs => quotedKey? cs

theorem quotedLine_le {mark : Char} {cs rest : List Char} {lexeme : Lexeme}
    (read : quotedLine mark cs = some (lexeme, rest)) : rest.length ≤ cs.length := by
  unfold quotedLine at read
  split at read
  · cases read
  · next scanned =>
    obtain ⟨_, _, same⟩ := Option.map_eq_some_iff.mp read
    cases same
    exact scanLine_le scanned

theorem quotedLines_le {mark : Char} {cs rest : List Char} {lexeme : Lexeme}
    (read : quotedLines mark cs = some (lexeme, rest)) : rest.length ≤ cs.length := by
  unfold quotedLines at read
  split at read
  · cases read
  · next scanned =>
    obtain ⟨_, _, same⟩ := Option.map_eq_some_iff.mp read
    cases same
    exact scanLines_le scanned

theorem quotedKey?_lt {cs rest : List Char} {lexeme : Lexeme}
    (read : quotedKey? cs = some (lexeme, rest)) : rest.length < cs.length := by
  unfold quotedKey? at read
  split at read
  · split at read
    · exact Nat.lt_succ_of_le (quotedLine_le read)
    · cases read
  · cases read

theorem quoted?_lt {cs rest : List Char} {lexeme : Lexeme}
    (read : quoted? cs = some (lexeme, rest)) : rest.length < cs.length := by
  unfold quoted? at read
  split at read
  · split at read
    · have := quotedLines_le read
      simp only [List.length_cons]
      omega
    · exact quotedKey?_lt read
  · exact quotedKey?_lt read

end ClassDiagram.Toml
