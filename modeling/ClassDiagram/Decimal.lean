import ClassDiagram.Double

/-! Decimal numbers, as exact numbers without a sign, and numerals with a point and an exponent
that stand for them. -/

namespace ClassDiagram

/-- The number `digits * 10 ^ exponent`. -/
structure Decimal where
  digits : Nat
  exponent : Int

namespace Decimal

def isExponentMark (c : Char) : Bool := c == 'e' || c == 'E'

def natOf (cs : List Char) : Nat := (String.ofList (cs.filter Char.isDigit)).toNat?.getD 0

def exponentOf (numeral : List Char) : Int :=
  let power := (numeral.dropWhile fun c => !isExponentMark c).drop 1
  let size : Int := natOf power
  if power.head? = some '-' then -size else size

def mantissaOf (numeral : List Char) : List Char := numeral.takeWhile fun c => !isExponentMark c

def digitsOf (numeral : List Char) : List Char :=
  ((mantissaOf numeral).filter Char.isDigit).dropWhile (· == '0')

/-- The power of ten that the last digit before the exponent stands for. -/
def lastPower (numeral : List Char) : Int :=
  let fraction := ((mantissaOf numeral).dropWhile (· ≠ '.')).filter Char.isDigit
  exponentOf numeral - fraction.length

def ofNumeral (numeral : List Char) : Decimal := ⟨natOf (digitsOf numeral), lastPower numeral⟩

/-- The nearest double; none when the number rounds to infinity. -/
def double? (d : Decimal) : Option Double :=
  Double.ofRatio (d.digits * Nat.pow 10 d.exponent.toNat) (Nat.pow 10 (-d.exponent).toNat)

/-- Whether a numeral is finite in double precision. Far from the bound, the number of digits
decides. -/
def isFinite (numeral : List Char) : Bool :=
  let digits := digitsOf numeral
  let size := digits.length + lastPower numeral
  if digits.isEmpty || size < 300 then true
  else if 400 < size then false
  else (ofNumeral numeral).double?.isSome

end Decimal

end ClassDiagram
