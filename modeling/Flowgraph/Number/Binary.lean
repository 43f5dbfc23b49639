/-! Finite binary floating-point numbers of double precision, in exact arithmetic. -/
namespace Flowgraph

/-- The number `± mant · 2 ^ exp`. A value made by `Binary.ofRatio?` has `mant < 2 ^ 53`, and either
`2 ^ 52 ≤ mant` or `exp = -1074`, so each number of the format has one form; zero has two, by sign. -/
structure Binary where
  negative : Bool
  mant : Nat
  exp : Int
  deriving DecidableEq, Repr

namespace Binary

/-- The exponent of the smallest step between two numbers. -/
def leastExp : Int := -1074

/-- The exponent beyond which a mantissa of 53 bits is out of range. -/
def greatestExp : Int := 971

def zero (negative : Bool) : Binary := ⟨negative, 0, leastExp⟩

def isZero (x : Binary) : Bool := x.mant == 0

/-- `num / den`, rounded to the nearest whole number, a half going to the even neighbour. -/
def divEven (num den : Nat) : Nat :=
  let q := num / den
  let r := num % den
  if 2 * r < den then q
  else if den < 2 * r then q + 1
  else if q % 2 = 0 then q else q + 1

/-- `num / den / 2 ^ exp` as a fraction. -/
def scaled (num den : Nat) (exp : Int) : Nat × Nat :=
  if exp ≥ 0 then (num, den * Nat.pow 2 exp.toNat) else (num * Nat.pow 2 (-exp).toNat, den)

/-- The exponent that leaves 53 bits before the point in `num / den`, or the least one. -/
def fittingExp (num den : Nat) : Int :=
  let guess : Int := (num.log2 : Int) - (den.log2 : Int) - 52
  let (n, d) := scaled num den guess
  max leastExp (if n < d * Nat.pow 2 52 then guess - 1 else guess)

/-- The number nearest to `num / den`, a tie going to the even mantissa; `none` if it is too large. -/
def ofRatio? (negative : Bool) (num den : Nat) : Option Binary :=
  if num = 0 then some (zero negative)
  else
    let exp := fittingExp num den
    let (n, d) := scaled num den exp
    let mant := divEven n d
    let x : Binary :=
      if mant = Nat.pow 2 53 then ⟨negative, Nat.pow 2 52, exp + 1⟩ else ⟨negative, mant, exp⟩
    if x.exp ≤ greatestExp then some x else none

/-- The absolute value as a fraction. -/
def ratio (x : Binary) : Nat × Nat :=
  if x.exp ≥ 0 then (x.mant * Nat.pow 2 x.exp.toNat, 1) else (x.mant, Nat.pow 2 (-x.exp).toNat)

def mul? (x y : Binary) : Option Binary :=
  let (a, b) := x.ratio
  let (c, d) := y.ratio
  ofRatio? (x.negative != y.negative) (a * c) (b * d)

/-- The quotient by a number other than zero. -/
def div? (x y : Binary) : Option Binary :=
  let (a, b) := x.ratio
  let (c, d) := y.ratio
  ofRatio? (x.negative != y.negative) (a * d) (b * c)

/-- Equality of the numbers: the two zeros are equal. -/
def same (x y : Binary) : Bool :=
  (x.isZero && y.isZero) || x == y

end Binary
end Flowgraph
