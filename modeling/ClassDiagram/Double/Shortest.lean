import ClassDiagram.Decimal

/-! The text of a double: the fewest digits that read back as the number, and of these the
nearest. From 10 ^ 16 on, and below 10 ^ -5, they are written with a power of ten, which always
has a sign. -/

namespace ClassDiagram.Double

def digitCount (n : Nat) : Nat := (Nat.toDigits 10 n).length

/-- The number of digits before the point, or less, by the zeros that follow it. -/
def pointAfter (d : Double) : Int :=
  let (num, den) := (d.numerator, d.denominator)
  if den ≤ num then digitCount (num / den) else 1 - digitCount ((den - 1) / num)

def around (d : Double) (count : Nat) : List Decimal :=
  let exponent := d.pointAfter - count
  let (n, m) := inUnits 10 d.numerator d.denominator exponent
  let near := nearest n m
  let far := if near = n / m then near + 1 else n / m
  [⟨near, exponent⟩, ⟨far, exponent⟩]

def readsBack (d : Double) (decimal : Decimal) : Bool := decimal.double? = some d

def maxDigits : Nat := 17

def shortest (d : Double) : Decimal :=
  let counts := (List.range maxDigits).map (· + 1)
  (counts.findSome? fun count => (d.around count).find? d.readsBack).getD ⟨0, 0⟩

def spell (digits : List Char) (exponent : Int) : String :=
  let point := digits.length + exponent
  if 0 ≤ exponent && point ≤ 16 then
    (String.ofList digits).pushn '0' exponent.toNat ++ ".0"
  else if 0 < point && point ≤ 16 then
    String.ofList (digits.take point.toNat ++ '.' :: digits.drop point.toNat)
  else if -5 < point && point ≤ 0 then
    "0.".pushn '0' (-point).toNat ++ String.ofList digits
  else
    let fraction := if digits.length ≤ 1 then [] else '.' :: digits.drop 1
    let mark := if 0 < point then "e+" else "e"
    String.ofList (digits.take 1 ++ fraction) ++ mark ++ toString (point - 1)

def decimalText (decimal : Decimal) : String :=
  let reversed := (Nat.toDigits 10 decimal.digits).reverse
  let kept := reversed.dropWhile (· == '0')
  spell kept.reverse (decimal.exponent + (reversed.length - kept.length))

def text (d : Double) : String := if d.mantissa = 0 then "0.0" else decimalText d.shortest

end ClassDiagram.Double
