/-! Finite numbers in double precision, without a sign. A quotient of whole numbers is rounded to
the nearest double; what rounds beyond the largest one is infinite, and is no double here. -/

namespace ClassDiagram

/-- The number `mantissa * 2 ^ exponent`. -/
structure Double where
  mantissa : Nat
  exponent : Int
  deriving DecidableEq

namespace Double

def precision : Nat := 53

def minExponent : Int := -1074

def maxExponent : Int := 971

def zero : Double := ⟨0, minExponent⟩

/-- The whole number nearest to a quotient; a tie goes to the even one. -/
def nearest (num den : Nat) : Nat :=
  let low := num / den
  let rest := num % den
  if den < 2 * rest || (2 * rest = den && low % 2 = 1) then low + 1 else low

def inUnits (base num den : Nat) (exponent : Int) : Nat × Nat :=
  (num * Nat.pow base (-exponent).toNat, den * Nat.pow base exponent.toNat)

/-- The exponent of the unit in which a quotient has as many bits as a mantissa, or that of the
smallest unit. -/
def unitOf (num den : Nat) : Int :=
  let low := max minExponent ((num.log2 : Int) - den.log2 - precision)
  let (n, d) := inUnits 2 num den low
  if Nat.pow 2 precision ≤ n / d then low + 1 else low

def normal (mantissa : Nat) (exponent : Int) : Double :=
  if mantissa = Nat.pow 2 precision then ⟨mantissa / 2, exponent + 1⟩ else ⟨mantissa, exponent⟩

def bounded? (d : Double) : Option Double := if d.exponent ≤ maxExponent then some d else none

/-- The double nearest to a quotient; none when that is infinite. -/
def ofRatio (num den : Nat) : Option Double :=
  if num = 0 then some zero
  else
    let unit := unitOf num den
    let (n, d) := inUnits 2 num den unit
    (normal (nearest n d) unit).bounded?

def numerator (d : Double) : Nat := d.mantissa * Nat.pow 2 d.exponent.toNat

def denominator (d : Double) : Nat := Nat.pow 2 (-d.exponent).toNat

def product (a b : Double) : Option Double :=
  ofRatio (a.numerator * b.numerator) (a.denominator * b.denominator)

def quotient (a b : Double) : Option Double :=
  ofRatio (a.numerator * b.denominator) (a.denominator * b.numerator)

end Double

end ClassDiagram
