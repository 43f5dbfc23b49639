import Flowgraph.Config.Deployment
/-! Instances of subflow templates: a private copy of the template's nodes, wired to what surrounds the
node that uses it. -/
namespace Flowgraph

/-- The node that receives what the usage node is sent. -/
def inputType : String := "subflow-in"
def statusSinkType : String := "subflow-status"
def completeSinkType : String := "subflow-complete"

def isInternalType (type : String) : Bool :=
  type == inputType || type == statusSinkType || type == completeSinkType

/-- Private ids are made of 32 hexadecimal digits. -/
def privateId (n : Nat) : NodeId :=
  let digits := Nat.toDigits 16 n
  "5e55a9e0f10a49e0b0a7" ++ String.ofList (List.replicate (12 - digits.length) '0' ++ digits)

/-- A template bound to one node that uses it: the private names of one instance. -/
structure Binding where
  template : Template
  usage : Record
  /-- The private id of each template node, in the order of the template. -/
  names : List (NodeId × NodeId)
  input : NodeId
  statusSink : Option NodeId
  completeSink : Option NodeId
  deriving DecidableEq, Inhabited

namespace Binding

/-- How many private ids an instance takes. -/
def idsNeeded (t : Template) : Nat :=
  t.nodes.length + 1 + t.status.toList.length + t.complete.toList.length

/-- Binds a template with the private ids from `next` on. -/
def make (t : Template) (usage : Record) (next : Nat) : Binding :=
  let count := t.nodes.length
  { template := t
    usage
    names := t.nodes.zipIdx.map fun (r, i) => (r.id, privateId (next + i))
    input := privateId (next + count)
    statusSink := t.status.map fun _ => privateId (next + count + 1)
    completeSink := t.complete.map fun _ => privateId (next + count + 1 + t.status.toList.length) }

/-- The private id of a template node. -/
def privateOf? (b : Binding) (id : NodeId) : Option NodeId :=
  (b.names.find? (·.1 == id)).map (·.2)

/-- The template node a private id stands for. -/
def aliasOf? (b : Binding) (id : NodeId) : Option NodeId :=
  (b.names.find? (·.2 == id)).map (·.1)

def interceptsStatus (b : Binding) : Bool := b.template.status.isSome

def interceptsComplete (b : Binding) : Bool := b.template.complete.isSome

/-- One definition of the usage node among those so far: it takes the place of the first of its name. -/
def overrideEntry (entries : List EnvEntry) (e : EnvEntry) : List EnvEntry :=
  match entries.findIdx? (·.name == e.name) with
  | some i => entries.set i e
  | none => entries ++ [e]

/-- The definitions of the template, overridden by those of the usage node. -/
def envEntries (b : Binding) : List EnvEntry :=
  b.usage.envEntries.foldl overrideEntry b.template.env

/-- The private id if it is a template node, and the id itself otherwise. -/
def rename (b : Binding) (id : NodeId) : NodeId := (b.privateOf? id).getD id

mutual
/-- Renames every text inside a value that is the id of a template node. -/
def renameValue (b : Binding) : Json → Json
  | .str s => .str (b.rename s)
  | .arr xs => .arr (renameItems b xs)
  | .obj xs => .obj (renameFields b xs)
  | v => v
termination_by structural v => v

def renameItems (b : Binding) : List Json → List Json
  | [] => []
  | x :: xs => renameValue b x :: renameItems b xs
termination_by structural xs => xs

def renameFields (b : Binding) : List (String × Json) → List (String × Json)
  | [] => []
  | (k, x) :: xs => (k, renameValue b x) :: renameFields b xs
termination_by structural xs => xs
end

/-- The private copy of a template node. Its environment definitions stay as they are. -/
def copy (b : Binding) (r : Record) : Record :=
  { r with
    id := b.rename r.id
    container := some b.usage.id
    wires := r.wires.map (·.map (·.map b.rename))
    properties := r.properties.map fun (k, v) => (k, if k = "env" then v else b.renameValue v) }

/-- A node of the instance that no record of the template declares. -/
def internal (b : Binding) (id : NodeId) (type : String) (wires : Wires) : Record :=
  ⟨id, type, some b.usage.id, some wires, false, []⟩

/-- Adds targets behind one port, which comes into being with those before it. There is no answer if the
number of ports does not fit a word of 64 bits. -/
def extendPort? (wires : Wires) (port : Nat) (targets : List NodeId) : Option Wires :=
  if port + 1 < Nat.pow 2 64 then
    let wires := wires ++ List.replicate (port + 1 - wires.length) []
    some (wires.modify port (· ++ targets))
  else none

/-- Adds targets behind a port of the first node with this id; without such a node nothing is added. -/
def connect? (nodes : List Record) (id : NodeId) (port : Nat) (targets : List NodeId) :
    Option (List Record) :=
  match nodes.findIdx? (·.id == id) with
  | none => some nodes
  | some i => do
    let r ← nodes[i]?
    let wires ← extendPort? r.outputs port targets
    return nodes.set i { r with wires := some wires }

/-- Joins the outputs behind a port of the template to targets; a wire from the template's own input is
left out. -/
def connectPort? (b : Binding) (nodes : List Record) (port : Port) (targets : List NodeId) :
    Option (List Record) :=
  port.wires.foldlM (fun nodes w => connect? nodes (b.rename w.node) w.port targets) nodes

/-- Joins one output port to its outer targets, and gives what its wires from the template's own input
add to the wiring of the input node. -/
def connectOutput? (b : Binding) (nodes : List Record) (port : Port) (targets : List NodeId) :
    Option (List Record × List NodeId) :=
  port.wires.foldlM (fun (nodes, passed) w =>
    if w.node = b.template.id then some (nodes, passed ++ targets)
    else (connect? nodes (b.rename w.node) w.port targets).map (·, passed)) (nodes, [])

def connectOutputs? (b : Binding) (outer : Wires) (nodes : List Record) :
    Option (List Record × List NodeId) :=
  b.template.outputs.zipIdx.foldlM (fun (nodes, passed) (port, i) => do
    let (nodes, more) ← b.connectOutput? nodes port (outer[i]?.getD [])
    return (nodes, passed ++ more)) (nodes, [])

/-- Joins a status or complete port to its sink, if the template declares it. -/
def addSink? (b : Binding) (nodes : List Record) (port : Option Port) (sink : Option NodeId)
    (type : String) : Option (List Record) :=
  match port, sink with
  | some port, some sink => do
    let nodes ← b.connectPort? nodes port [sink]
    return nodes ++ [b.internal sink type []]
  | _, _ => some nodes

/-- What the first input port of the template leads to. -/
def inputTargets (b : Binding) : List NodeId :=
  ((b.template.inputs.head?.map (·.wires)).getD []).map fun w => b.rename w.node

/-- The nodes of the instance, with its outputs wired to `outer`: the copies in the order of the template,
the sinks of the status and complete ports, and the input node. There is no answer if a port number is
out of range. -/
def expand? (b : Binding) (outer : Wires) : Option (List Record) := do
  let (nodes, passed) ← b.connectOutputs? outer (b.template.nodes.map b.copy)
  let nodes ← b.addSink? nodes b.template.status b.statusSink statusSinkType
  let nodes ← b.addSink? nodes b.template.complete b.completeSink completeSinkType
  return nodes ++ [b.internal b.input inputType [b.inputTargets ++ passed]]

end Binding
end Flowgraph
