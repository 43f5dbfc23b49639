import Flowgraph.Json.Decoding
import Flowgraph.Json.Printer
/-! Messages on wires, and the status a node shows. -/
namespace Flowgraph

/-- A message: named values. Each has an id under `_msgid`. -/
structure Message where
  body : Dict Json
  deriving DecidableEq, Inhabited

namespace Message

def get? (m : Message) (key : String) : Option Json := Dict.get? m.body key

def contains (m : Message) (key : String) : Bool := Dict.contains m.body key

def insert (m : Message) (key : String) (v : Json) : Message := ⟨Dict.insert m.body key v⟩

def erase (m : Message) (key : String) : Message := ⟨Dict.erase m.body key⟩

def id? (m : Message) : Option String := (m.get? "_msgid").bind Json.asStr?

def payload? (m : Message) : Option Json := m.get? "payload"

def size (m : Message) : Nat := m.body.length

def toJson (m : Message) : Json := .obj m.body

/-- A message with nothing but an id. -/
def empty (fresh : String) : Message := ⟨[("_msgid", .str fresh)]⟩

/-- An object is the message itself, given an id if it has none; any other value is a payload. -/
def ofJson (fresh : String) : Json → Message
  | .obj body =>
    if Dict.contains body "_msgid" then ⟨body⟩ else (Message.mk body).insert "_msgid" (.str fresh)
  | v => (empty fresh).insert "payload" v

/-- Message ids have the shape of a random UUID. -/
def idText (n : Nat) : String :=
  let digits := Nat.toDigits 16 n
  "5e55a9e0-0000-4000-8000-" ++ String.ofList (List.replicate (12 - digits.length) '0' ++ digits)

end Message

/-- What a node shows of itself. -/
structure Status where
  fill : Option String
  shape : Option String
  text : Option String
  deriving DecidableEq, Repr, Inhabited

namespace Status

def none : Status := ⟨.none, .none, .none⟩

def ofText (text : String) : Status := ⟨.none, .none, some text⟩

def ofJson? (v : Json) : Option Status := do
  match ← v.members? ["fill", "shape", "text"] with
  | [fill, shape, text] =>
    return ⟨← Json.optional fill Json.asStr?, ← Json.optional shape Json.asStr?,
      ← Json.optional text Json.asStr?⟩
  | _ => failure

def fields (s : Status) : List (String × Json) :=
  let field (name : String) (v : Option String) := v.toList.map fun t => (name, Json.str t)
  field "fill" s.fill ++ field "shape" s.shape ++ field "text" s.text

def toJson (s : Status) : Json := Json.record s.fields

end Status
end Flowgraph
