import ClassDiagram.Json.Source
import ClassDiagram.Text.Hex

/-! The tokens of a JSON text, read by a machine that takes one character at a time. -/

namespace ClassDiagram.Json

inductive Token where
  | openArray
  | closeArray
  | openObject
  | closeObject
  | comma
  | colon
  | text (content : Option String)
  | word (value : Source)

inductive Mode where
  | between
  | word (reversed : List Char)
  | quoted (content : Quoted)
  | escape (content : Quoted)
  /-- Inside the four digits of a code unit. -/
  | unit (content : Quoted) (value left : Nat)

structure Lexer where
  mode : Mode
  /-- The tokens so far, last one first. -/
  tokens : List Token

namespace Lexer

def start : Lexer := ⟨.between, []⟩

def isBlank (c : Char) : Bool := c == ' ' || c == '\t' || c == '\n' || c == '\r'

def isWordChar (c : Char) : Bool := c.isAlphanum || c == '-' || c == '+' || c == '.'

def mark? : Char → Option Token
  | '[' => some .openArray
  | ']' => some .closeArray
  | '\x7b' => some .openObject
  | '\x7d' => some .closeObject
  | ',' => some .comma
  | ':' => some .colon
  | _ => none

def between (tokens : List Token) (c : Char) : Option Lexer :=
  if isBlank c then some ⟨.between, tokens⟩
  else if c = '"' then some ⟨.quoted .empty, tokens⟩
  else if isWordChar c then some ⟨.word [c], tokens⟩
  else (mark? c).map fun token => ⟨.between, token :: tokens⟩

def escaped? : Char → Option Char
  | '"' => some '"'
  | '\\' => some '\\'
  | '/' => some '/'
  | 'b' => some '\x08'
  | 'f' => some '\x0c'
  | 'n' => some '\n'
  | 'r' => some '\r'
  | 't' => some '\t'
  | _ => none

def inside (tokens : List Token) (content : Quoted) (c : Char) : Option Lexer :=
  if c = '"' then some ⟨.between, .text content.text? :: tokens⟩
  else if c = '\\' then some ⟨.escape content, tokens⟩
  else if c.toNat < 32 then none
  else some ⟨.quoted (content.addChar c), tokens⟩

def endWord (tokens : List Token) (reversed : List Char) : Option (List Token) :=
  (ofWord? reversed.reverse).map fun value => .word value :: tokens

def step (l : Lexer) (c : Char) : Option Lexer :=
  match l.mode with
  | .between => between l.tokens c
  | .word reversed =>
    if isWordChar c then some ⟨.word (c :: reversed), l.tokens⟩
    else (endWord l.tokens reversed).bind fun tokens => between tokens c
  | .quoted content => inside l.tokens content c
  | .escape content =>
    if c = 'u' then some ⟨.unit content 0 4, l.tokens⟩
    else (escaped? c).map fun c => ⟨.quoted (content.addChar c), l.tokens⟩
  | .unit content value left =>
    (Text.hexValue? c).map fun digit =>
      let value := 16 * value + digit
      if left ≤ 1 then ⟨.quoted (content.addUnit value), l.tokens⟩
      else ⟨.unit content value (left - 1), l.tokens⟩

def finish (l : Lexer) : Option (List Token) :=
  match l.mode with
  | .between => some l.tokens.reverse
  | .word reversed => (endWord l.tokens reversed).map List.reverse
  | _ => none

end Lexer

def tokens? (text : String) : Option (List Token) :=
  (text.toList.foldlM Lexer.step Lexer.start).bind Lexer.finish

end ClassDiagram.Json
