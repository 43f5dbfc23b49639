import Flowgraph.Config.Record
import Flowgraph.Fault
/-! A deployment: a flat list of records, sorted into tabs, the global flow and subflow templates. -/
namespace Flowgraph

/-- One end of a template port: an output of a node in the template. -/
structure PortWire where
  node : NodeId
  port : Nat
  deriving DecidableEq, Repr

/-- A port of a template and the outputs behind it. -/
structure Port where
  wires : List PortWire
  deriving DecidableEq, Repr, Inhabited

/-- Port numbers are unsigned and have 64 bits. -/
def PortWire.ofJson? (v : Json) : Option PortWire := do
  match ← v.members? ["id", "port"] with
  | [node, port] => return ⟨← node.bind Json.asStr?, ← Json.orElse port 0 Json.asNat?⟩
  | _ => failure

def Port.ofJson? (v : Json) : Option Port := do
  match ← v.members? ["wires"] with
  | [wires] => return ⟨← Json.orElse wires [] (Json.list? PortWire.ofJson?)⟩
  | _ => failure

/-- The definition of a subflow, shared by all nodes that use it. -/
structure Template where
  id : String
  name : Option String
  inputs : List Port
  outputs : List Port
  status : Option Port
  complete : Option Port
  env : List EnvEntry
  nodes : List Record
  deriving DecidableEq, Inhabited

abbrev Templates := Dict Template

/-- The nodes of one flow: a tab, the global flow, or one instance of a template. -/
structure FlowConfig where
  id : String
  label : Option String
  disabled : Bool
  env : List EnvEntry
  nodes : List Record
  templates : Templates
  deriving DecidableEq, Inhabited

def FlowConfig.node? (c : FlowConfig) (id : NodeId) : Option Record :=
  c.nodes.find? (·.id == id)

/-- Records sorted by the container they name. -/
structure Deployment where
  /-- Every node record, those of unknown containers included. -/
  nodes : Dict Record
  tabs : List FlowConfig
  global : FlowConfig
  templates : Templates
  deriving DecidableEq, Inhabited

namespace Deployment

def globalId : String := "global"

/-- A record by what it declares. -/
inductive Item
  | tab (config : FlowConfig)
  | template (template : Template)
  | node (record : Record)

def tab? (v : Json) : Option FlowConfig := do
  let field (name : String) := v.field? name
  return {
    id := ← (field "id").bind Json.asStr?
    label := ← Json.optional (field "label") Json.asStr?
    disabled := ← Json.orElse (field "disabled") false Json.asBool?
    env := ← Json.orElse (field "env") [] (Json.list? EnvEntry.ofJson?)
    nodes := []
    templates := [] }

def template? (v : Json) : Option Template := do
  let field (name : String) := v.field? name
  return {
    id := ← (field "id").bind Json.asStr?
    name := ← Json.optional (field "name") Json.asStr?
    inputs := ← Json.orElse (field "in") [] (Json.list? Port.ofJson?)
    outputs := ← Json.orElse (field "out") [] (Json.list? Port.ofJson?)
    status := ← Json.optional (field "status") Port.ofJson?
    complete := ← Json.optional (field "complete") Port.ofJson?
    env := ← Json.orElse (field "env") [] (Json.list? EnvEntry.ofJson?)
    nodes := [] }

def item? (type : String) (v : Json) : Option Item :=
  if type = "tab" then (tab? v).map .tab
  else if type = "subflow" then (template? v).map .template
  else (Record.ofJson? v).map .node

/-- The id and the type of a record, which must be texts. -/
def identify (v : Json) : Except ConfigFault (String × String) :=
  match v with
  | .obj _ =>
    match (v.field? "id").bind Json.asStr?, (v.field? "type").bind Json.asStr? with
    | none, _ => .error (.malformedRecord "?" .missingId)
    | some id, none => .error (.malformedRecord id .missingType)
    | some id, some type => .ok (id, type)
  | _ => .error (.malformedRecord "?" .notAnObject)

/-- Reads the records one by one; the first that is at fault decides. -/
def items (seen : List String) : List Json → Except ConfigFault (List Item)
  | [] => .ok []
  | v :: rest => do
    let (id, type) ← identify v
    if seen.contains id then .error (.duplicateId id)
    else
      match item? type v with
      | none => .error (.malformedRecord id .unreadableField)
      | some item => return item :: (← items (id :: seen) rest)

def Item.tab? : Item → Option FlowConfig
  | .tab config => some config
  | _ => none

def Item.template? : Item → Option Template
  | .template t => some t
  | _ => none

def Item.node? : Item → Option Record
  | .node r => some r
  | _ => none

/-- The nodes that name a container, in the order of their records. -/
def nodesIn (nodes : List Record) (container : String) : List Record :=
  nodes.filter (·.container == some container)

/-- Puts each node where it belongs. A container may be declared after its nodes; a node that names one
which does not exist belongs to none. -/
def assemble (items : List Item) : Deployment :=
  let nodes := items.filterMap Item.node?
  let tabs := items.filterMap Item.tab?
  let templates : Templates := Dict.ofList <|
    (items.filterMap Item.template?).map fun t => (t.id, { t with nodes := nodesIn nodes t.id })
  { nodes := Dict.ofList (nodes.map fun r => (r.id, r))
    tabs := tabs.map fun t => { t with nodes := nodesIn nodes t.id, templates }
    global :=
      { id := globalId, label := none, disabled := false, env := [],
        nodes := nodes.filter (·.container.isNone), templates }
    templates }

def parse (records : List Json) : Except ConfigFault Deployment :=
  (items [] records).map assemble

/-- The deployment of no records. -/
def empty : Deployment := assemble []

def flow? (d : Deployment) (id : String) : Option FlowConfig :=
  if id = globalId then some d.global else d.tabs.find? (·.id == id)

def tabIds (d : Deployment) : List String := d.tabs.map (·.id)

/-- The nodes of the global flow, of the tabs and of the templates, in this order. -/
def placedNodes (d : Deployment) : List Record :=
  d.global.nodes ++ d.tabs.flatMap (·.nodes) ++ d.templates.values.flatMap (·.nodes)

def isMissing (d : Deployment) (known : String → Bool) (r : Record) : Bool :=
  match r.templateId? with
  | some t => !Dict.contains d.templates t
  | none => !known r.type

/-- The types that are not known, and those of usage nodes whose template does not exist, each once. -/
def missingTypes (d : Deployment) (known : String → Bool) : List String :=
  ((d.placedNodes.filter (d.isMissing known)).map (·.type)).foldl
    (fun found type => if found.contains type then found else found ++ [type]) []

end Deployment
end Flowgraph
