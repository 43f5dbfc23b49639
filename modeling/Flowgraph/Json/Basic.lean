import Flowgraph.Dict
import Flowgraph.Number.Binary
/-! JSON values. Integers and floating-point numbers are told apart; fields are sorted by name. -/
namespace Flowgraph

/-- A number as it was written: an integer of at most 64 bits, or a floating-point number. -/
inductive Number
  | int (i : Int)
  | float (x : Binary)
  deriving DecidableEq, Repr

namespace Number

/-- Equality of numbers: an integer never equals a floating-point number. -/
def same : Number → Number → Bool
  | .int i, .int j => i == j
  | .float x, .float y => x.same y
  | _, _ => false

/-- The number as an unsigned integer of 64 bits, if it is one. -/
def unsigned? : Number → Option Nat
  | .int i => if 0 ≤ i then some i.toNat else none
  | .float _ => none

end Number

inductive Json
  | null
  | bool (b : Bool)
  | num (n : Number)
  | str (s : String)
  | arr (items : List Json)
  | obj (fields : List (String × Json))
  deriving Inhabited

namespace Json

mutual
def decEq : (a b : Json) → Decidable (a = b)
  | .null, b => match b with
    | .null => isTrue rfl
    | .bool _ | .num _ | .str _ | .arr _ | .obj _ => isFalse nofun
  | .bool x, b => match b with
    | .bool y => if h : x = y then isTrue (h ▸ rfl) else isFalse fun e => h (Json.bool.inj e)
    | .null | .num _ | .str _ | .arr _ | .obj _ => isFalse nofun
  | .num x, b => match b with
    | .num y => if h : x = y then isTrue (h ▸ rfl) else isFalse fun e => h (Json.num.inj e)
    | .null | .bool _ | .str _ | .arr _ | .obj _ => isFalse nofun
  | .str x, b => match b with
    | .str y => if h : x = y then isTrue (h ▸ rfl) else isFalse fun e => h (Json.str.inj e)
    | .null | .bool _ | .num _ | .arr _ | .obj _ => isFalse nofun
  | .arr xs, b => match b with
    | .arr ys => match decEqItems xs ys with
      | isTrue h => isTrue (h ▸ rfl)
      | isFalse h => isFalse fun e => h (Json.arr.inj e)
    | .null | .bool _ | .num _ | .str _ | .obj _ => isFalse nofun
  | .obj xs, b => match b with
    | .obj ys => match decEqFields xs ys with
      | isTrue h => isTrue (h ▸ rfl)
      | isFalse h => isFalse fun e => h (Json.obj.inj e)
    | .null | .bool _ | .num _ | .str _ | .arr _ => isFalse nofun
termination_by structural a => a

def decEqItems : (xs ys : List Json) → Decidable (xs = ys)
  | [], [] => isTrue rfl
  | [], _ :: _ => isFalse nofun
  | _ :: _, [] => isFalse nofun
  | x :: xs, y :: ys => match decEq x y, decEqItems xs ys with
    | isTrue h, isTrue k => isTrue (h ▸ k ▸ rfl)
    | isFalse h, _ => isFalse fun e => h (List.cons.inj e).1
    | _, isFalse k => isFalse fun e => k (List.cons.inj e).2
termination_by structural xs => xs

def decEqFields : (xs ys : List (String × Json)) → Decidable (xs = ys)
  | [], [] => isTrue rfl
  | [], _ :: _ => isFalse nofun
  | _ :: _, [] => isFalse nofun
  | (i, x) :: xs, (j, y) :: ys =>
    if hi : i = j then match decEq x y, decEqFields xs ys with
      | isTrue h, isTrue k => isTrue (hi ▸ h ▸ k ▸ rfl)
      | isFalse h, _ => isFalse fun e => h (Prod.mk.inj (List.cons.inj e).1).2
      | _, isFalse k => isFalse fun e => k (List.cons.inj e).2
    else isFalse fun e => hi (Prod.mk.inj (List.cons.inj e).1).1
termination_by structural xs => xs
end

instance : DecidableEq Json := decEq

/-! Equality of values is equality of their parts, where the two zeros count as one number. -/

mutual
def same : Json → Json → Bool
  | .null, .null => true
  | .bool a, .bool b => a == b
  | .num a, .num b => a.same b
  | .str a, .str b => a == b
  | .arr xs, .arr ys => sameItems xs ys
  | .obj xs, .obj ys => sameFields xs ys
  | _, _ => false
termination_by structural a => a

def sameItems : List Json → List Json → Bool
  | [], [] => true
  | x :: xs, y :: ys => same x y && sameItems xs ys
  | _, _ => false
termination_by structural xs => xs

def sameFields : List (String × Json) → List (String × Json) → Bool
  | [], [] => true
  | (i, x) :: xs, (j, y) :: ys => i == j && same x y && sameFields xs ys
  | _, _ => false
termination_by structural xs => xs
end

mutual
/-- Puts the fields of every object in order; of two fields with one name the later counts. -/
def sorted : Json → Json
  | .arr xs => .arr (sortedItems xs)
  | .obj xs => .obj (Dict.ofList (sortedFields xs))
  | v => v
termination_by structural a => a

def sortedItems : List Json → List Json
  | [] => []
  | x :: xs => sorted x :: sortedItems xs
termination_by structural xs => xs

def sortedFields : List (String × Json) → List (String × Json)
  | [] => []
  | (k, x) :: xs => (k, sorted x) :: sortedFields xs
termination_by structural xs => xs
end

def int (i : Int) : Json := .num (.int i)

def nat (n : Nat) : Json := .num (.int n)

/-- An object from its fields in any order. -/
def record (fields : List (String × Json)) : Json := .obj (Dict.ofList fields)

def ofOption (v : Option Json) : Json := v.getD .null

def asStr? : Json → Option String
  | .str s => some s
  | _ => none

def asBool? : Json → Option Bool
  | .bool b => some b
  | _ => none

def asArr? : Json → Option (List Json)
  | .arr xs => some xs
  | _ => none

def asObj? : Json → Option (Dict Json)
  | .obj fields => some fields
  | _ => none

def asNat? : Json → Option Nat
  | .num n => n.unsigned?
  | _ => none

/-- The value of a field, if this is an object that has it. -/
def field? (v : Json) (name : String) : Option Json :=
  v.asObj?.bind fun fields => Dict.get? fields name

end Json
end Flowgraph
