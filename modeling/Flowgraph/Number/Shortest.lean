import Flowgraph.Number.Binary
/-! The shortest decimal text that reads back as a given floating-point number. -/
namespace Flowgraph.Binary

/-- The number of decimal digits of `n`, at least one. -/
def digitCount (n : Nat) : Nat := (Nat.toDigits 10 n).length

/-- `num / den` against `c · 10 ^ e`. -/
def compareDecimal (num den c : Nat) (e : Int) : Ordering :=
  if e ≥ 0 then compare num (c * Nat.pow 10 e.toNat * den)
  else compare (num * Nat.pow 10 (-e).toNat) (c * den)

/-- The exponent `e` with `10 ^ e ≤ num / den < 10 ^ (e + 1)`, for a positive fraction. -/
def decimalExp (num den : Nat) : Int :=
  if den ≤ num then (digitCount (num / den) : Int) - 1
  else
    let e : Int := 1 - (digitCount (den / num) : Int)
    if compareDecimal num den 1 e == .lt then e - 1 else e

/-- The real numbers that round to one number of the format: two fractions over `den`, and whether
they belong to it themselves. -/
structure Rounding where
  low : Nat
  high : Nat
  den : Nat
  closed : Bool

/-- The interval around a number other than zero. Its lower half is shorter at a power of two. -/
def rounding (x : Binary) : Rounding :=
  let (num, den) := ({ x with mant := 4 * x.mant, exp := x.exp - 2 } : Binary).ratio
  let step := num / (4 * x.mant)
  let below := if x.mant = Nat.pow 2 52 && x.exp != leastExp then step else 2 * step
  ⟨num - below, num + 2 * step, den, x.mant % 2 = 0⟩

def Rounding.holds (r : Rounding) (c : Nat) (e : Int) : Bool :=
  let fromLow := compareDecimal r.low r.den c e
  let toHigh := compareDecimal r.high r.den c e
  (fromLow == .lt || (r.closed && fromLow == .eq)) &&
    (toHigh == .gt || (r.closed && toHigh == .eq))

/-- Of the two neighbours of `num / den` on the grid `10 ^ e`, the one that rounds back and is
nearer; of two equally near the even one. -/
def onGrid? (r : Rounding) (num den : Nat) (e : Int) : Option Nat :=
  let c := if e ≥ 0 then num / (den * Nat.pow 10 e.toNat) else num * Nat.pow 10 (-e).toNat / den
  match c != 0 && r.holds c e, r.holds (c + 1) e with
  | false, false => none
  | true, false => some c
  | false, true => some (c + 1)
  | true, true =>
    match compareDecimal (2 * num) den (2 * c + 1) e with
    | .lt => some c
    | .gt => some (c + 1)
    | .eq => some (if c % 2 = 0 then c else c + 1)

/-- Tries grids from coarse to fine. -/
def firstOnGrid (r : Rounding) (num den : Nat) : Nat → Int → Nat × Int
  | 0, e => (0, e)
  | grids + 1, e =>
    match onGrid? r num den e with
    | some c => (c, e)
    | none => firstOnGrid r num den grids (e - 1)

/-- The fewest digits that read back, as `digits · 10 ^ e`; seventeen always suffice. -/
def shortest (x : Binary) : Nat × Int :=
  let (num, den) := x.ratio
  firstOnGrid x.rounding num den 17 (decimalExp num den)

/-- How a number is laid out: positional while its decimal exponent lies between the two bounds. -/
structure Layout where
  leastPositional : Int
  greatestPositional : Int

/-- Positional from five zeros behind the point up to sixteen digits before it. -/
def Layout.json : Layout := ⟨-5, 15⟩

/-- Digits without the zeros at their end. -/
def significant (digits : List Char) : List Char :=
  (digits.reverse.dropWhile (· == '0')).reverse

/-- A point always stands in positional text, followed by at least one digit; an exponent has its sign. -/
def Layout.place (layout : Layout) (digits : List Char) (e : Int) : List Char :=
  if layout.leastPositional ≤ e && e ≤ layout.greatestPositional then
    if e < 0 then '0' :: '.' :: (List.replicate (-e - 1).toNat '0' ++ digits)
    else
      let whole := digits.take (e + 1).toNat
      let pad := List.replicate ((e + 1).toNat - digits.length) '0'
      let part := digits.drop (e + 1).toNat
      whole ++ pad ++ '.' :: (if part.isEmpty then ['0'] else part)
  else
    let point := match digits with
      | [] => []
      | [d] => [d]
      | d :: rest => d :: '.' :: rest
    point ++ 'e' :: (if e < 0 then '-' else '+') :: Nat.toDigits 10 e.natAbs

/-- The shortest text that reads back, the sign of zero kept. -/
def text (x : Binary) : String :=
  let body :=
    if x.isZero then ['0', '.', '0']
    else
      let (c, e) := x.shortest
      let digits := Nat.toDigits 10 c
      Layout.json.place (significant digits) (e + (digits.length : Int) - 1)
  String.ofList (if x.negative then '-' :: body else body)

end Flowgraph.Binary
