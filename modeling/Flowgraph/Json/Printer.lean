import Flowgraph.Json.Basic
import Flowgraph.Number.Shortest
/-! The text of a JSON value: on one line without blanks, or indented by two spaces. -/
namespace Flowgraph

def Number.text : Number → String
  | .int i => if i < 0 then "-" ++ Nat.repr i.natAbs else Nat.repr i.natAbs
  | .float x => x.text

namespace Json

/-- What stands for a character inside a quoted string: control characters, the quote and the
backslash are escaped, all others stand for themselves. -/
def escaped (c : Char) : List Char :=
  if c = '"' then ['\\', '"']
  else if c = '\\' then ['\\', '\\']
  else if c.toNat = 0x08 then ['\\', 'b']
  else if c.toNat = 0x0c then ['\\', 'f']
  else if c = '\n' then ['\\', 'n']
  else if c = '\r' then ['\\', 'r']
  else if c = '\t' then ['\\', 't']
  else if c.toNat < 0x20 then
    ['\\', 'u', '0', '0', Nat.digitChar (c.toNat / 16), Nat.digitChar (c.toNat % 16)]
  else [c]

def quoted (s : String) : String :=
  String.ofList ('"' :: (s.toList.flatMap escaped ++ ['"']))

mutual
/-- The value on one line. -/
def text : Json → String
  | .null => "null"
  | .bool b => if b then "true" else "false"
  | .num n => n.text
  | .str s => quoted s
  | .arr xs => "[" ++ String.intercalate "," (textItems xs) ++ "]"
  | .obj xs => "\x7b" ++ String.intercalate "," (textFields xs) ++ "\x7d"
termination_by structural v => v

def textItems : List Json → List String
  | [] => []
  | x :: xs => text x :: textItems xs
termination_by structural xs => xs

def textFields : List (String × Json) → List String
  | [] => []
  | (k, x) :: xs => (quoted k ++ ":" ++ text x) :: textFields xs
termination_by structural xs => xs
end

def indent (depth : Nat) : String :=
  String.ofList ('\n' :: List.replicate (2 * depth) ' ')

/-- A bracketed list with one part on each line; without parts the brackets touch. -/
def block (opening closing : String) (depth : Nat) (parts : List String) : String :=
  if parts.isEmpty then opening ++ closing
  else
    opening ++ indent (depth + 1) ++ String.intercalate ("," ++ indent (depth + 1)) parts ++
      indent depth ++ closing

mutual
def indented (depth : Nat) : Json → String
  | .null => "null"
  | .bool b => if b then "true" else "false"
  | .num n => n.text
  | .str s => quoted s
  | .arr xs => block "[" "]" depth (indentedItems (depth + 1) xs)
  | .obj xs => block "\x7b" "\x7d" depth (indentedFields (depth + 1) xs)
termination_by structural v => v

def indentedItems (depth : Nat) : List Json → List String
  | [] => []
  | x :: xs => indented depth x :: indentedItems depth xs
termination_by structural xs => xs

def indentedFields (depth : Nat) : List (String × Json) → List String
  | [] => []
  | (k, x) :: xs => (quoted k ++ ": " ++ indented depth x) :: indentedFields depth xs
termination_by structural xs => xs
end

/-- The value over several lines. -/
def pretty (v : Json) : String := indented 0 v

end Json
end Flowgraph
