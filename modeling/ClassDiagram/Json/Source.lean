/-! JSON as it is read. What a reader may ignore is kept as it was spelled, so that nothing is
refused before it is looked at: a number is its lexeme, members may repeat a key, and a string
has no text when its escapes name half of a surrogate pair. -/

namespace ClassDiagram.Json

inductive Source where
  | null
  | bool (b : Bool)
  | number (lexeme : String)
  | string (text : Option String)
  | array (items : List Source)
  | object (members : List (Option String × Source))

structure Quoted where
  /-- What has been read, last character first. -/
  reversed : List Char
  /-- The first half of a pair that waits for the second. -/
  half : Option Nat
  sound : Bool

namespace Quoted

def empty : Quoted := ⟨[], none, true⟩

def addChar (q : Quoted) (c : Char) : Quoted :=
  ⟨c :: q.reversed, none, q.sound && q.half.isNone⟩

def isFirstHalf (unit : Nat) : Bool := 0xD800 ≤ unit && unit ≤ 0xDBFF

def isSecondHalf (unit : Nat) : Bool := 0xDC00 ≤ unit && unit ≤ 0xDFFF

def addUnit (q : Quoted) (unit : Nat) : Quoted :=
  if isFirstHalf unit then ⟨q.reversed, some unit, q.sound && q.half.isNone⟩
  else if isSecondHalf unit then
    match q.half with
    | some first =>
      let point := 0x10000 + (first - 0xD800) * 0x400 + (unit - 0xDC00)
      ⟨Char.ofNat point :: q.reversed, none, q.sound⟩
    | none => { q with sound := false }
  else q.addChar (Char.ofNat unit)

def text? (q : Quoted) : Option String :=
  if q.sound && q.half.isNone then some (String.ofList q.reversed.reverse) else none

end Quoted

def dropDigits (cs : List Char) : List Char := cs.dropWhile Char.isDigit

def isExponent (cs : List Char) : Bool :=
  let digits := fun cs : List Char => !cs.isEmpty && cs.all Char.isDigit
  match cs with
  | [] => true
  | e :: rest =>
    (e == 'e' || e == 'E') &&
      match rest with
      | '+' :: ds => digits ds
      | '-' :: ds => digits ds
      | ds => digits ds

def isFraction (cs : List Char) : Bool :=
  match cs with
  | '.' :: d :: rest => d.isDigit && isExponent (dropDigits rest)
  | cs => isExponent cs

def isUnsigned (cs : List Char) : Bool :=
  match cs with
  | '0' :: rest => isFraction rest
  | d :: rest => d.isDigit && isFraction (dropDigits rest)
  | [] => false

/-- Whether a word is a number: no zeros in front, and digits around the point. -/
def isNumber (cs : List Char) : Bool :=
  match cs with
  | '-' :: rest => isUnsigned rest
  | cs => isUnsigned cs

def ofWord? (word : List Char) : Option Source :=
  if word = "null".toList then some .null
  else if word = "true".toList then some (.bool true)
  else if word = "false".toList then some (.bool false)
  else if isNumber word then some (.number (String.ofList word))
  else none

end ClassDiagram.Json
