import Flowgraph.Config.Record
import Flowgraph.Json.Reader
import Flowgraph.Json.Printer
import Flowgraph.Text.Blank
/-! Environment variables: tokens that stand for them, and the definitions that give them values. -/
namespace Flowgraph

/-- What a name stands for in some scope. -/
abbrev Lookup := String → Option Json

namespace Scope

/-- The name inside a token: a text that is a dollar sign and a name in parentheses, and nothing else.
Names hold no white space, but may hold parentheses. -/
def tokenName? (s : String) : Option String :=
  match s.toList with
  | '$' :: '(' :: rest =>
    let name := rest.dropLast
    if rest.getLast? == some ')' && !name.isEmpty && !name.any Text.isBlank then
      some (String.ofList name)
    else none
  | _ => none

/-- A text that is a token for a known name becomes its value; all others stay. -/
def resolveText (lookup : Lookup) (s : String) : Json :=
  ((tokenName? s).bind lookup).getD (.str s)

mutual
/-- Replaces tokens anywhere inside a value. What replaces them is not looked at again. -/
def resolve (lookup : Lookup) : Json → Json
  | .str s => resolveText lookup s
  | .arr xs => .arr (resolveItems lookup xs)
  | .obj xs => .obj (resolveFields lookup xs)
  | v => v
termination_by structural v => v

def resolveItems (lookup : Lookup) : List Json → List Json
  | [] => []
  | x :: xs => resolve lookup x :: resolveItems lookup xs
termination_by structural xs => xs

def resolveFields (lookup : Lookup) : List (String × Json) → List (String × Json)
  | [] => []
  | (k, x) :: xs => (k, resolve lookup x) :: resolveFields lookup xs
termination_by structural xs => xs
end

/-- Replaces tokens in a node's properties, its own environment definitions aside: those are evaluated
by the instance they belong to. -/
def resolveRecord (lookup : Lookup) (r : Record) : Record :=
  { r with properties := r.properties.map fun (k, v) =>
      (k, if k = "env" then v else resolve lookup v) }

/-- The number a definition gives. Text is read as an integer first and as a floating-point number
otherwise, white space around it aside. -/
def numberOf? : Json → Option Json
  | .num n => some (.num n)
  | .str s =>
    let cs := Text.trim s.toList
    match Decimal.signed64? cs with
    | some i => some (.int i)
    | none => (Decimal.float? cs).map fun x => .num (.float x)
  | _ => none

/-- The value of one definition. `outer` is the scope around it, where variables are looked up. -/
def valueOf (outer : Lookup) (e : EnvEntry) : Json :=
  match e.kind with
  | "num" => (numberOf? e.value).getD .null
  | "bool" =>
    match e.value with
    | .bool b => .bool b
    | .str s => .bool (s == "true")
    | _ => .bool false
  | "json" =>
    match e.value with
    | .str s => (Json.read? s).getD (.str s)
    | v => v
  | "env" => (e.value.asStr?.bind outer).getD .null
  | _ =>
    match e.value with
    | .str s => .str s
    | .null => .str ""
    | v => .str v.text

/-- The values of a list of definitions; of several with one name the last counts. -/
def evaluate (outer : Lookup) (entries : List EnvEntry) : Dict Json :=
  Dict.ofList (entries.map fun e => (e.name, valueOf outer e))

end Scope
end Flowgraph
