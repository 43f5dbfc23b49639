import Flowgraph.Json.Basic
import Flowgraph.Number.Decimal
/-! Reading JSON text, strictly: nothing but one value, nested at most 127 deep, with paired
surrogates and escaped control characters. -/
namespace Flowgraph.Json

def isGap (c : Char) : Bool :=
  c == ' ' || c == '\n' || c == '\t' || c == '\r'

def skipGap (cs : List Char) : List Char := cs.dropWhile isGap

/-! ## Numbers

A literal without point and exponent is an integer if 64 bits hold it. Any other is a decimal
significand, of which only as many digits count as 64 bits hold, times a power of ten; it is rounded
once for the significand and once for the product. -/

/-- The power of ten as a floating-point number, for exponents up to 308. -/
def powerOfTen (e : Nat) : Binary := (Binary.ofRatio? false (Nat.pow 10 e) 1).getD (.zero false)

/-- `significand · 10 ^ e`; `none` if it is out of range. Exponents below `-308` are applied in steps,
three of which bring every significand down to zero. -/
def scale? : (steps : Nat) → (significand : Binary) → (e : Int) → Option Binary
  | 0, f, _ => some (.zero f.negative)
  | steps + 1, f, e =>
    if e.natAbs ≤ 308 then
      if e ≥ 0 then f.mul? (powerOfTen e.natAbs) else f.div? (powerOfTen e.natAbs)
    else if f.isZero then some f
    else if e ≥ 0 then none
    else (f.div? (powerOfTen 308)).bind fun g => scale? steps g (e + 308)

def float? (negative : Bool) (significand : Nat) (e : Int) : Option Binary := do
  let f ← Binary.ofRatio? false significand 1
  let x ← scale? 4 f e
  some { x with negative }

/-- Appends digits to a significand while 64 bits hold it, and gives the digits left over. -/
def gather (significand : Nat) : List Char → Nat × List Char
  | [] => (significand, [])
  | d :: ds =>
    let n := significand * 10 + (d.toNat - '0'.toNat)
    if n < Nat.pow 2 64 then gather n ds else (significand, d :: ds)

def integer (negative : Bool) (n : Nat) : Option Number :=
  if !negative then some (.int n)
  else if 0 < n && n ≤ Nat.pow 2 63 then some (.int (-n))
  else (float? true n 0).map .float

/-- The exponent part, if there is one: its sign, its digits and the rest. -/
def exponentPart? : List Char → Option (Option (Bool × List Char) × List Char)
  | c :: cs =>
    if c = 'e' || c = 'E' then
      let (negative, rest) := Decimal.signed cs
      let ds := rest.takeWhile Char.isDigit
      if ds.isEmpty then none else some (some (negative, ds), rest.dropWhile Char.isDigit)
    else some (none, c :: cs)
  | [] => some (none, [])

/-- Applies an exponent. One beyond 31 bits makes the number zero or puts it out of range. -/
def raise? (negative : Bool) (significand : Nat) (e : Int) : Option (Bool × List Char) → Option Binary
  | none => float? negative significand e
  | some (down, ds) =>
    let n := Decimal.digitsValue ds
    if n < Nat.pow 2 31 then float? negative significand (if down then e - n else e + n)
    else if significand != 0 && !down then none
    else some (.zero negative)

def number? (cs : List Char) : Option (Number × List Char) := do
  let (negative, cs) := match cs with
    | '-' :: rest => (true, rest)
    | rest => (false, rest)
  let whole := cs.takeWhile Char.isDigit
  let rest := cs.dropWhile Char.isDigit
  if whole.isEmpty || (whole.head? == some '0' && whole.length != 1) then none
  else
    let (significand, dropped) := gather 0 whole
    match rest with
    | '.' :: more =>
      let part := more.takeWhile Char.isDigit
      if part.isEmpty then none
      else
        let (power, rest) ← exponentPart? (more.dropWhile Char.isDigit)
        let (significand, unread) := gather significand part
        let e := (dropped.length : Int) - ((part.length : Int) - unread.length)
        let x ← raise? negative significand e power
        some (.float x, rest)
    | _ =>
      let (power, rest) ← exponentPart? rest
      if power.isNone && dropped.isEmpty then
        let n ← integer negative significand
        some (n, rest)
      else
        let x ← raise? negative significand dropped.length power
        some (.float x, rest)

/-! ## Strings -/

def hexDigit? (c : Char) : Option Nat :=
  if c.isDigit then some (c.toNat - '0'.toNat)
  else if 'a' ≤ c && c ≤ 'f' then some (c.toNat - 'a'.toNat + 10)
  else if 'A' ≤ c && c ≤ 'F' then some (c.toNat - 'A'.toNat + 10)
  else none

def hex4? (a b c d : Char) : Option Nat := do
  some ((((← hexDigit? a) * 16 + (← hexDigit? b)) * 16 + (← hexDigit? c)) * 16 + (← hexDigit? d))

/-- The character behind a backslash, other than a numbered one. -/
def unescape? (c : Char) : Option Char :=
  match c with
  | '"' | '\\' | '/' => some c
  | 'b' => some (Char.ofNat 8)
  | 'f' => some (Char.ofNat 12)
  | 'n' => some '\n'
  | 'r' => some '\r'
  | 't' => some '\t'
  | _ => none

/-- Reads up to the closing quote; `seen` holds the characters so far, the last one first. -/
def string? (seen : List Char) : List Char → Option (String × List Char)
  | [] => none
  | '"' :: rest => some (String.ofList seen.reverse, rest)
  | '\\' :: 'u' :: a :: b :: c :: d :: rest => do
    let n ← hex4? a b c d
    if 0xdc00 ≤ n && n < 0xe000 then none
    else if 0xd800 ≤ n && n < 0xdc00 then
      match rest with
      | '\\' :: 'u' :: a :: b :: c :: d :: rest => do
        let m ← hex4? a b c d
        if 0xdc00 ≤ m && m < 0xe000 then
          string? (Char.ofNat (0x10000 + (n - 0xd800) * 0x400 + (m - 0xdc00)) :: seen) rest
        else none
      | _ => none
    else string? (Char.ofNat n :: seen) rest
  | '\\' :: c :: rest =>
    match unescape? c with
    | some c => string? (c :: seen) rest
    | none => none
  | c :: rest => if c = '\\' || c.toNat < 0x20 then none else string? (c :: seen) rest

/-! ## Values -/

def literal? (word : String) (v : Json) (cs : List Char) : Option (Json × List Char) :=
  if word.toList.isPrefixOf cs then some (v, cs.drop word.length) else none

mutual
/-- A value in front of the text. `depth` is how many brackets may still be opened. -/
def value? : (fuel depth : Nat) → List Char → Option (Json × List Char)
  | 0, _, _ => none
  | fuel + 1, depth, cs =>
    match skipGap cs with
    | '"' :: rest => (string? [] rest).map fun (s, rest) => (.str s, rest)
    | '[' :: rest =>
      if depth = 0 then none
      else match skipGap rest with
        | ']' :: rest => some (.arr [], rest)
        | rest => (items? fuel (depth - 1) rest).map fun (xs, rest) => (.arr xs, rest)
    | '\x7b' :: rest =>
      if depth = 0 then none
      else match skipGap rest with
        | '\x7d' :: rest => some (.obj [], rest)
        | rest => (fields? fuel (depth - 1) rest).map fun (xs, rest) => (.obj xs, rest)
    | 'n' :: rest => literal? "ull" .null rest
    | 't' :: rest => literal? "rue" (.bool true) rest
    | 'f' :: rest => literal? "alse" (.bool false) rest
    | rest => (number? rest).map fun (n, rest) => (.num n, rest)

/-- The items of an array up to its closing bracket, at least one. -/
def items? : (fuel depth : Nat) → List Char → Option (List Json × List Char)
  | 0, _, _ => none
  | fuel + 1, depth, cs => do
    let (v, rest) ← value? fuel depth cs
    match skipGap rest with
    | ',' :: rest => (items? fuel depth rest).map fun (vs, rest) => (v :: vs, rest)
    | ']' :: rest => some ([v], rest)
    | _ => none

/-- The fields of an object up to its closing brace, at least one, as they stand. -/
def fields? : (fuel depth : Nat) → List Char → Option (List (String × Json) × List Char)
  | 0, _, _ => none
  | fuel + 1, depth, cs =>
    match skipGap cs with
    | '"' :: rest => do
      let (key, rest) ← string? [] rest
      match skipGap rest with
      | ':' :: rest =>
        let (v, rest) ← value? fuel depth rest
        match skipGap rest with
        | ',' :: rest => (fields? fuel depth rest).map fun (vs, rest) => ((key, v) :: vs, rest)
        | '\x7d' :: rest => some ([(key, v)], rest)
        | _ => none
      | _ => none
    | _ => none
end

/-- The deepest nesting that is read. -/
def depthLimit : Nat := 127

/-- The value a text holds, with the fields of objects as they stand, repeated ones included. Every two
steps read at least one character, which bounds the fuel. -/
def readUnsorted? (text : String) : Option Json :=
  let cs := text.toList
  match value? (2 * cs.length + 2) depthLimit cs with
  | some (v, rest) => if (skipGap rest).isEmpty then some v else none
  | none => none

/-- The value a text holds. -/
def read? (text : String) : Option Json := (readUnsorted? text).map sorted

end Flowgraph.Json
