import Flowgraph.Config.Deployment
import Flowgraph.Config.References
/-! In which order the nodes of a flow are created, and which configurations have no such order.
A node comes after the config nodes it refers to; templates must not contain themselves. -/
namespace Flowgraph.StartOrder

/-- The position of the enabled node an id stands for; of several nodes with one id it is the last. -/
def positionOf? (nodes : List Record) (id : NodeId) : Option Nat :=
  (nodes.zipIdx.filter fun (r, _) => !r.disabled && r.id == id).getLast?.map (·.2)

/-- The positions of the config nodes that the node at `pos` refers to, in increasing order. -/
def needs (nodes : List Record) (pos : Nat) : List Nat :=
  match nodes[pos]? with
  | none => []
  | some r =>
    (nodes.zipIdx.filter fun (dep, i) =>
      !dep.disabled && dep.isConfigNode && r.refersTo dep.id &&
        positionOf? nodes dep.id == some i).map (·.2)

/-- Config nodes first, then the others, each group as declared. -/
def roots (nodes : List Record) : List Nat :=
  let enabled := nodes.zipIdx.filter fun (r, _) => !r.disabled
  ((enabled.filter fun (r, _) => r.isConfigNode) ++
    enabled.filter fun (r, _) => !r.isConfigNode).map (·.2)

def idAt (nodes : List Record) (pos : Nat) : NodeId :=
  ((nodes[pos]?).map (·.id)).getD ""

/-- Appends to `order` the node at `pos` behind all it needs. `path` holds the nodes that wait for it;
coming back to one of them is a cycle. Since a path has no repeats, as much fuel as there are nodes
suffices. -/
def visit (nodes : List Record) :
    (fuel : Nat) → (path order : List Nat) → (pos : Nat) → Except ConfigFault (List Nat)
  | fuel, path, order, pos =>
    if order.contains pos then .ok order
    else if path.contains pos then .error (.circularDependency (idAt nodes pos))
    else match fuel with
      | 0 => .error (.circularDependency (idAt nodes pos))
      | fuel + 1 => do
        let order ← (needs nodes pos).foldlM (visit nodes fuel (pos :: path)) order
        return order ++ [pos]

/-- The positions of the enabled nodes in the order of their creation. -/
def resolve (nodes : List Record) : Except ConfigFault (List Nat) :=
  (roots nodes).foldlM (visit nodes (nodes.length + 1) []) []

/-- Checks the templates that enabled nodes use, and those used inside them. `path` holds the templates
around the nodes and `checked` those known to be sound; a template that does not exist is passed over. -/
def checkUsages (templates : Templates) :
    (fuel : Nat) → (path checked : List String) → (nodes : List Record) →
      Except ConfigFault (List String)
  | 0, _, checked, _ => .ok checked
  | fuel + 1, path, checked, nodes =>
    (nodes.filter fun r => !r.disabled).foldlM (fun checked r =>
      match r.templateId? with
      | none => .ok checked
      | some id =>
        if path.contains id then .error (.circularDependency id)
        else if checked.contains id then .ok checked
        else match templates.get? id with
          | none => .ok checked
          | some t => do
            let _ ← resolve t.nodes
            let checked ← checkUsages templates fuel (id :: path) checked t.nodes
            return id :: checked) checked

/-- A path of templates has no repeats, so the fuel covers every nesting. -/
def checkTemplates (nodes : List Record) (templates : Templates) : Except ConfigFault Unit :=
  (checkUsages templates (templates.length + 1) [] [] nodes).map fun _ => ()

/-- The creation order of a flow all of whose nodes and templates are sound. -/
def validate (flow : FlowConfig) : Except ConfigFault (List Nat) := do
  let order ← resolve flow.nodes
  checkTemplates flow.nodes flow.templates
  return order

/-- Whether the global flow and every tab are sound; of several faults the first counts. -/
def validateAll (d : Deployment) : Except ConfigFault Unit :=
  (d.global :: d.tabs).forM fun flow => (validate flow).map fun _ => ()

end Flowgraph.StartOrder
