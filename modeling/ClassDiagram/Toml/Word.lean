import ClassDiagram.Decimal
import ClassDiagram.Text.Hex
import ClassDiagram.Toml.Tree

/-! The values of TOML that are written without marks: truth values, numbers, dates and times.
Of a number or a moment only that it is one is kept, since its spelling holds the rest. -/

namespace ClassDiagram.Toml

def isWordChar (c : Char) : Bool :=
  c.isAlphanum || c == '+' || c == '-' || c == '.' || c == '_' || c == ':'

def isGrouped (isDigit : Char → Bool) : List Char → Bool
  | [] => false
  | [c] => isDigit c
  | c :: '_' :: rest => isDigit c && isGrouped isDigit rest
  | c :: rest => isDigit c && isGrouped isDigit rest

def isWhole : List Char → Bool
  | ['0'] => true
  | '0' :: _ => false
  | cs => isGrouped Char.isDigit cs

def withoutSign : List Char → List Char
  | '+' :: rest => rest
  | '-' :: rest => rest
  | cs => cs

def isNegative (cs : List Char) : Bool := cs.head? == some '-'

def valueIn (base : Nat) (cs : List Char) : Nat :=
  (cs.filterMap Text.hexValue?).foldl (fun value digit => base * value + digit) 0

def digitIn (base : Nat) (c : Char) : Bool := (Text.hexValue? c).any (· < base)

def wholeBound : Nat := 0x8000000000000000

/-- Whole numbers have to fit into 64 bits with a sign. -/
def isInteger (cs : List Char) : Bool :=
  let inBase := fun (base : Nat) (digits : List Char) =>
    isGrouped (digitIn base) digits && valueIn base digits < wholeBound
  match cs with
  | '0' :: 'x' :: digits => inBase 16 digits
  | '0' :: 'o' :: digits => inBase 8 digits
  | '0' :: 'b' :: digits => inBase 2 digits
  | cs =>
    let whole := withoutSign cs
    let bound := if isNegative cs then wholeBound + 1 else wholeBound
    isWhole whole && valueIn 10 whole < bound

def isPower : List Char → Bool
  | [] => false
  | e :: rest => Decimal.isExponentMark e && isGrouped Char.isDigit (withoutSign rest)

def isFractionAndPower : List Char → Bool
  | '.' :: rest =>
    let power := rest.dropWhile fun c => !Decimal.isExponentMark c
    isGrouped Char.isDigit (rest.takeWhile fun c => !Decimal.isExponentMark c) &&
      (power.isEmpty || isPower power)
  | cs => isPower cs

def isFloat (cs : List Char) : Bool :=
  let unsigned := withoutSign cs
  let inWhole := fun c : Char => c.isDigit || c == '_'
  unsigned == ['i', 'n', 'f'] || unsigned == ['n', 'a', 'n'] ||
    (isWhole (unsigned.takeWhile inWhole) && isFractionAndPower (unsigned.dropWhile inWhole) &&
      (isNegative cs || Decimal.isFinite (unsigned.filter (· ≠ '_'))))

def twoDigits (a b : Char) : Option Nat :=
  if a.isDigit && b.isDigit then some (10 * (a.toNat - 48) + (b.toNat - 48)) else none

def daysIn (year month : Nat) : Nat :=
  if month = 2 then
    if year % 4 = 0 && (year % 100 ≠ 0 || year % 400 = 0) then 29 else 28
  else if month = 4 || month = 6 || month = 9 || month = 11 then 30
  else 31

def afterDate? : List Char → Option (List Char)
  | a :: b :: c :: d :: '-' :: e :: f :: '-' :: g :: h :: rest => do
    let century ← twoDigits a b
    let year ← twoDigits c d
    let month ← twoDigits e f
    let day ← twoDigits g h
    if 1 ≤ month && month ≤ 12 && 1 ≤ day && day ≤ daysIn (100 * century + year) month then
      some rest
    else none
  | _ => none

def isOffset : List Char → Bool
  | [] => true
  | ['Z'] => true
  | ['z'] => true
  | [sign, a, b, ':', c, d] =>
    (sign == '+' || sign == '-') && (twoDigits a b).any (· ≤ 23) && (twoDigits c d).any (· ≤ 59)
  | _ => false

def afterTime? : List Char → Option (List Char)
  | a :: b :: ':' :: c :: d :: ':' :: e :: f :: rest =>
    if (twoDigits a b).any (· ≤ 23) && (twoDigits c d).any (· ≤ 59) &&
        (twoDigits e f).any (· ≤ 60) then
      match rest with
      | '.' :: g :: more => if g.isDigit then some (more.dropWhile Char.isDigit) else none
      | rest => some rest
    else none
  | _ => none

def isTime (cs : List Char) : Bool := afterTime? cs == some []

/-- A date, a time, or a date and a time with or without an offset. -/
def isMoment (cs : List Char) : Bool :=
  match afterDate? cs with
  | some [] => true
  | some (mark :: time) =>
    (mark == 'T' || mark == 't' || mark == ' ') && (afterTime? time).any isOffset
  | none => isTime cs

def isDate (cs : List Char) : Bool := afterDate? cs == some []

def scalarOf? (word : List Char) : Option Scalar :=
  if word = "true".toList then some (.bool true)
  else if word = "false".toList then some (.bool false)
  else if isInteger word || isFloat word then some .number
  else if isMoment word then some .moment
  else none

/-- A word, and the text after it. A blank between a date and a time belongs to the word. -/
def splitWord (cs : List Char) : List Char × List Char :=
  let word := cs.takeWhile isWordChar
  let rest := cs.dropWhile isWordChar
  match rest with
  | ' ' :: d :: more =>
    if isDate word && d.isDigit then
      (word ++ ' ' :: (d :: more).takeWhile isWordChar, (d :: more).dropWhile isWordChar)
    else (word, rest)
  | _ => (word, rest)

theorem splitWord_lt {cs rest word : List Char} {c : Char}
    (split : splitWord cs = (c :: word, rest)) :
    rest.length < cs.length := by
  have total := congrArg List.length (List.takeWhile_append_dropWhile (p := isWordChar) (l := cs))
  have shorter := fun l : List Char => (List.dropWhile_sublist isWordChar (l := l)).length_le
  unfold splitWord at split
  grind

end ClassDiagram.Toml
