import ClassDiagram.Decimal

/-! JSON numbers as they are held. Whole numbers of 64 bits are held as they are, and all others
in double precision. For these the digits of a numeral are gathered into a word of 64 bits, as
many as fit; of the others, those of the whole part count as zeros and those of the fraction are
dropped. The word is then multiplied with a power of ten, or divided by one, and each step is
rounded. -/

namespace ClassDiagram.Json

def wordBound : Nat := 0x10000000000000000

def digitValue (c : Char) : Nat := c.toNat - 48

/-- Appends digits to a word, up to the first one that does not fit. Gives the digits that are
left. -/
def gather (word : Nat) : List Char → Nat × List Char
  | [] => (word, [])
  | d :: ds =>
    let longer := 10 * word + digitValue d
    if longer < wordBound then gather longer ds else (word, d :: ds)

/-- The digits that a numeral in the grammar of JSON puts into a word, and the power of ten that
is left. Its sign does not matter here. -/
def gathered (numeral : List Char) : Decimal :=
  let mantissa := Decimal.mantissaOf numeral
  let whole := (mantissa.takeWhile (· ≠ '.')).filter Char.isDigit
  let fraction := (mantissa.dropWhile (· ≠ '.')).filter Char.isDigit
  let (word, zeros) := gather 0 whole
  let (word, dropped) := gather word fraction
  ⟨word, Decimal.exponentOf numeral + zeros.length - (fraction.length - dropped.length)⟩

def maxPower : Nat := 308

def powerOfTen (power : Nat) : Option Double := Decimal.double? ⟨1, power⟩

def divide (power : Nat) (d : Double) : Option Double :=
  if power ≤ maxPower then (powerOfTen power).bind d.quotient
  else if d.mantissa = 0 then some .zero
  else ((powerOfTen maxPower).bind d.quotient).bind (divide (power - maxPower))
termination_by power
decreasing_by
  unfold maxPower at *
  omega

/-- A word times a power of ten in double precision, rounded step by step; none when it is
infinite. -/
def stepwise? (d : Decimal) : Option Double :=
  if d.digits = 0 then some .zero
  else (Double.ofRatio d.digits 1).bind fun word =>
    if d.exponent < 0 then divide (-d.exponent).toNat word
    else if maxPower < d.exponent then none
    else (powerOfTen d.exponent.toNat).bind word.product

inductive Number where
  | whole (n : Int)
  | double (isNegative : Bool) (magnitude : Double)

namespace Number

def isWholeNumeral (numeral : List Char) : Bool := numeral.all fun c => c.isDigit || c == '-'

/-- Whether a whole number fits into 64 bits, with a sign where it is negative. There is no
negative zero among them. -/
def fits (isNegative : Bool) (size : Nat) : Bool :=
  if isNegative then 0 < size && 2 * size ≤ wordBound else size < wordBound

def ofNumeral? (numeral : List Char) : Option Number :=
  let isNegative := numeral.head? = some '-'
  let d := gathered numeral
  if isWholeNumeral numeral && d.exponent = 0 && fits isNegative d.digits then
    some (.whole (if isNegative then -d.digits else d.digits))
  else (stepwise? d).map (.double isNegative)

end Number

end ClassDiagram.Json
