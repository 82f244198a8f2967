import ClassDiagram.Text.Hex
import ClassDiagram.Toml.Tree

/-! How new keys and values are written. A string takes the first of these forms that can hold
it: quotation marks, apostrophes, three quotation marks, three apostrophes, and quotation marks
with escapes. -/

namespace ClassDiagram.Toml

/-- A control character, other than a tab or a line feed. -/
def needsEscape (c : Char) : Bool :=
  (c.toNat < 0x20 && c ≠ '\t' && c ≠ '\n') || c.toNat = 0x7F

def longestRun (mark : Char) (cs : List Char) : Nat :=
  (cs.foldl (fun (longest, current) c =>
    let current := if c = mark then current + 1 else 0
    (max longest current, current)) (0, 0)).1

def shortEscape? : Char → Option Char
  | '\x08' => some 'b'
  | '\t' => some 't'
  | '\n' => some 'n'
  | '\x0c' => some 'f'
  | '\r' => some 'r'
  | '"' => some '"'
  | '\\' => some '\\'
  | _ => none

def escapeCode (c : Char) : List Char :=
  match shortEscape? c with
  | some short => ['\\', short]
  | none => ['\\', 'u', '0', '0', Text.upperHex (c.toNat / 16), Text.upperHex (c.toNat % 16)]

/-- The inside of a string with escapes. Over several lines, line feeds stand as they are, and of
quotation marks in a row each third one is escaped. -/
def escapeText (multiline : Bool) (marks : Nat) : List Char → List Char
  | [] => []
  | '"' :: rest =>
    if multiline && marks < 2 then '"' :: escapeText multiline (marks + 1) rest
    else '\\' :: '"' :: escapeText multiline 0 rest
  | c :: rest =>
    (if multiline && c = '\n' then [c]
      else if needsEscape c || c = '\t' || c = '\n' || c = '\\' then escapeCode c
      else [c]) ++ escapeText multiline 0 rest

/-- A string over several lines opens with a line end, which is no content. -/
def openLines (cs : List Char) : List Char := if cs.contains '\n' then ['\n'] else []

def spellText (cs : List Char) : List Char :=
  let clean := !cs.any needsEscape
  let oneLine := !cs.contains '\n'
  let noBackslash := !cs.contains '\\'
  let three := fun mark : Char => [mark, mark, mark]
  if clean && noBackslash && !cs.contains '"' && oneLine then
    ['"'] ++ escapeText false 0 cs ++ ['"']
  else if clean && !cs.contains '\'' && oneLine then ['\''] ++ cs ++ ['\'']
  else if clean && noBackslash && longestRun '"' cs ≤ 2 then
    three '"' ++ openLines cs ++ escapeText true 0 cs ++ three '"'
  else if clean && longestRun '\'' cs ≤ 2 then three '\'' ++ openLines cs ++ cs ++ three '\''
  else if oneLine then ['"'] ++ escapeText false 0 cs ++ ['"']
  else three '"' ++ openLines cs ++ escapeText true 0 cs ++ three '"'

/-- A key is bare where it can be, and else a string on one line. -/
def spellKey (cs : List Char) : List Char :=
  let clean := !cs.any fun c => needsEscape c || c = '\n'
  if !cs.isEmpty && cs.all (fun c => c.isAlphanum || c == '-' || c == '_') then cs
  else if clean && !cs.contains '\\' && !cs.contains '"' then
    ['"'] ++ escapeText false 0 cs ++ ['"']
  else if clean && !cs.contains '\'' then ['\''] ++ cs ++ ['\'']
  else ['"'] ++ escapeText false 0 cs ++ ['"']

def spellScalar : Scalar → List Char
  | .text content => spellText content.toList
  | .bool true => "true".toList
  | .bool false => "false".toList
  | .number | .moment => []

end ClassDiagram.Toml
