import Flowgraph.Json.Decoding
/-! Node records of a deployment. -/
namespace Flowgraph

abbrev NodeId := String

/-- Outbound wiring: for each output port the ids it leads to. -/
abbrev Wires := List (List NodeId)

/-- An environment definition as it is declared. -/
structure EnvEntry where
  name : String
  value : Json
  kind : String
  deriving DecidableEq, Inhabited

namespace EnvEntry

/-- A definition without a kind is a text. -/
def ofJson? (v : Json) : Option EnvEntry := do
  match ← v.members? ["name", "value", "type"] with
  | [name, value, kind] =>
    return ⟨← name.bind Json.asStr?, value.getD .null, ← Json.orElse kind "str" Json.asStr?⟩
  | _ => failure

def toJson (e : EnvEntry) : Json :=
  Json.record [("name", .str e.name), ("value", e.value), ("type", .str e.kind)]

def same (a b : EnvEntry) : Bool :=
  a.name == b.name && a.value.same b.value && a.kind == b.kind

end EnvEntry

/-- One node of a deployment, or the declaration of one. -/
structure Record where
  id : NodeId
  type : String
  /-- The tab or template that holds the node. -/
  container : Option String
  /-- The declared wiring; a node may declare none. -/
  wires : Option Wires
  disabled : Bool
  /-- All other fields. They mean something to the node alone. -/
  properties : Dict Json
  deriving DecidableEq, Inhabited

namespace Record

/-- The fields that are not properties. -/
def reserved : List String := ["id", "type", "z", "parentFlowId", "wires", "d", "disabled"]

/-- The ids one port leads to; an id alone stands for a list of one. -/
def port? : Json → Option (List NodeId)
  | .str id => some [id]
  | v => Json.list? Json.asStr? v

/-- A field known under two names; an object that has both is refused. -/
def either (fields : Dict Json) (name other : String) : Option (Option Json) :=
  match Dict.get? fields name, Dict.get? fields other with
  | some _, some _ => none
  | some v, none | none, some v => some (some v)
  | none, none => some none

def ofJson? (v : Json) : Option Record := do
  let fields ← v.asObj?
  let id ← (Dict.get? fields "id").bind Json.asStr?
  let type ← (Dict.get? fields "type").bind Json.asStr?
  let container ← Json.optional (← either fields "z" "parentFlowId") Json.asStr?
  let wires ← Json.optional (Dict.get? fields "wires") (Json.list? port?)
  let disabled ← Json.orElse (← either fields "d" "disabled") false Json.asBool?
  return ⟨id, type, container, wires, disabled, fields.filter (!reserved.contains ·.1)⟩

def wiresJson (wires : Wires) : Json := .arr (wires.map fun port => .arr (port.map .str))

def toJson (r : Record) : Json :=
  Json.record (r.properties ++ [("id", .str r.id), ("type", .str r.type), ("d", .bool r.disabled)] ++
    r.container.toList.map (fun z => ("z", .str z)) ++
    r.wires.toList.map fun wires => ("wires", wiresJson wires))

/-- The wiring, empty for a node that declares none. -/
def outputs (r : Record) : Wires := r.wires.getD []

def property? (r : Record) (key : String) : Option Json := Dict.get? r.properties key

def name? (r : Record) : Option String := (r.property? "name").bind Json.asStr?

/-- Config nodes are settings that others share: they have neither wiring nor a place on the canvas. -/
def isConfigNode (r : Record) : Bool :=
  r.wires.isNone && !Dict.contains r.properties "x" && !Dict.contains r.properties "y"

/-- The template this node uses, if it is a usage node. -/
def templateId? (r : Record) : Option String :=
  let mark := "subflow:".toList
  let type := r.type.toList
  if mark.isPrefixOf type then some (String.ofList (type.drop mark.length)) else none

/-- The environment definitions a record declares; none if they do not have the form of definitions. -/
def envEntries (r : Record) : List EnvEntry :=
  ((r.property? "env").bind (Json.list? EnvEntry.ofJson?)).getD []

end Record
end Flowgraph
