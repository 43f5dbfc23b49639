import Flowgraph.Number.Binary
/-! Numbers written in decimal, outside of JSON: what a text field may hold as a number. -/
namespace Flowgraph.Decimal

def digitsValue (ds : List Char) : Nat :=
  ds.foldl (fun n d => 10 * n + (d.toNat - '0'.toNat)) 0

/-- The sign and the rest; a plus sign is allowed. -/
def signed : List Char → Bool × List Char
  | '-' :: rest => (true, rest)
  | '+' :: rest => (false, rest)
  | rest => (false, rest)

def natural? (cs : List Char) : Option Nat :=
  if cs.isEmpty || !cs.all Char.isDigit then none else some (digitsValue cs)

/-- A natural number below `2 ^ 64`; a plus sign is allowed. -/
def unsigned64? (cs : List Char) : Option Nat := do
  let ds := match cs with
    | '+' :: rest => rest
    | rest => rest
  let n ← natural? ds
  if n < Nat.pow 2 64 then some n else none

/-- An integer of 64 bits with sign. -/
def signed64? (cs : List Char) : Option Int := do
  let (negative, ds) := signed cs
  let n ← natural? ds
  let i : Int := if negative then -n else n
  if -(Nat.pow 2 63 : Int) ≤ i && i < (Nat.pow 2 63 : Int) then some i else none

/-- The exponent part of a number, zero if it has none. -/
def exponent? : List Char → Option Int
  | [] => some 0
  | c :: rest =>
    if c = 'e' || c = 'E' then do
      let (negative, ds) := signed rest
      let n ← natural? ds
      some (if negative then -n else n)
    else none

/-- The number nearest to `± digits · 10 ^ e`; `none` if it is out of range. Exponents far outside the
range of the format are decided without computing the power. -/
def nearest? (negative : Bool) (digits : Nat) (e : Int) : Option Binary :=
  if digits = 0 then some (.zero negative)
  else
    let size := ((Nat.toDigits 10 digits).length : Int) + e
    if size > 400 then none
    else if size < -400 then some (.zero negative)
    else if e ≥ 0 then Binary.ofRatio? negative (digits * Nat.pow 10 e.toNat) 1
    else Binary.ofRatio? negative digits (Nat.pow 10 (-e).toNat)

/-- A decimal number, rounded once to the nearest floating-point number. Digits may stand on either side
of the point alone. Words for infinity and for what is no number are not numbers here. -/
def float? (cs : List Char) : Option Binary := do
  let (negative, body) := signed cs
  let whole := body.takeWhile Char.isDigit
  let rest := body.dropWhile Char.isDigit
  let (part, rest) := match rest with
    | '.' :: more => (more.takeWhile Char.isDigit, more.dropWhile Char.isDigit)
    | _ => ([], rest)
  if whole.isEmpty && part.isEmpty then none
  else
    let e ← exponent? rest
    nearest? negative (digitsValue (whole ++ part)) (e - (part.length : Int))

end Flowgraph.Decimal
