import ClassDiagram.Double.Shortest
import ClassDiagram.Text.Hex

/-! JSON values that are written, and their text with one entry to a line, two blanks to a
level. Members stand in the order in which they are given. -/

namespace ClassDiagram.Json

inductive Value where
  | null
  | bool (b : Bool)
  | number (n : Int)
  | double (isNegative : Bool) (magnitude : Double)
  | string (text : String)
  | array (items : List Value)
  | object (members : List (String × Value))

def escapeChar (c : Char) : List Char :=
  match c with
  | '"' => ['\\', '"']
  | '\\' => ['\\', '\\']
  | '\n' => ['\\', 'n']
  | '\r' => ['\\', 'r']
  | '\t' => ['\\', 't']
  | '\x08' => ['\\', 'b']
  | '\x0c' => ['\\', 'f']
  | c =>
    if c.toNat < 32 then
      ['\\', 'u', '0', '0', Text.lowerHex (c.toNat / 16), Text.lowerHex (c.toNat % 16)]
    else [c]

def quote (text : String) : String :=
  "\"" ++ String.ofList (text.toList.flatMap escapeChar) ++ "\""

def newline (level : Nat) : String := "\n" ++ "".pushn ' ' (2 * level)

namespace Value

def opt (text : Option String) : Value :=
  match text with
  | some text => string text
  | none => null

mutual

def pretty (level : Nat) : Value → String
  | null => "null"
  | bool true => "true"
  | bool false => "false"
  | number n => toString n
  | double isNegative magnitude => (if isNegative then "-" else "") ++ magnitude.text
  | string text => quote text
  | array [] => "[]"
  | array (item :: rest) =>
    "[" ++ newline (level + 1) ++ item.pretty (level + 1) ++ prettyItems (level + 1) rest ++
      newline level ++ "]"
  | object [] => "\x7b\x7d"
  | object ((key, value) :: rest) =>
    "\x7b" ++ newline (level + 1) ++ quote key ++ ": " ++ value.pretty (level + 1) ++
      prettyMembers (level + 1) rest ++ newline level ++ "\x7d"

def prettyItems (level : Nat) : List Value → String
  | [] => ""
  | item :: rest => "," ++ newline level ++ item.pretty level ++ prettyItems level rest

def prettyMembers (level : Nat) : List (String × Value) → String
  | [] => ""
  | (key, value) :: rest =>
    "," ++ newline level ++ quote key ++ ": " ++ value.pretty level ++ prettyMembers level rest

end

end Value

end ClassDiagram.Json
