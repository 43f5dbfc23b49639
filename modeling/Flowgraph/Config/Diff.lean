import Flowgraph.Config.Deployment
import Flowgraph.Config.References
/-! What a redeployment touches. Nodes inside a template never show by themselves: any change in a
template marks the template as changed, and with it every node that uses it, through any nesting. -/
namespace Flowgraph

/-- The difference of two generations of a deployment, by ids in increasing order. -/
structure Diff where
  added : List NodeId
  changed : List NodeId
  removed : List NodeId
  rewired : List NodeId
  /-- Untouched ids that wires join to a touched one. -/
  linked : List NodeId
  deriving DecidableEq, Repr, Inhabited

namespace Diff

def isEmpty (d : Diff) : Bool :=
  d.added.isEmpty && d.changed.isEmpty && d.removed.isEmpty && d.rewired.isEmpty

def fields (d : Diff) : List (String × List NodeId) :=
  [("added", d.added), ("changed", d.changed), ("removed", d.removed), ("rewired", d.rewired),
    ("linked", d.linked)]

/-! ## Comparing parts -/

/-- Where a node stands on the canvas does not matter. -/
def material (r : Record) : Dict Json :=
  r.properties.filter fun entry => entry.1 != "x" && entry.1 != "y"

/-- Whether two records of one id differ in more than place and wiring. -/
def nodeDiffers (old new : Record) : Bool :=
  old.type != new.type || old.container != new.container || old.disabled != new.disabled ||
    !Json.sameFields (material old) (material new)

def sameEnv : List EnvEntry → List EnvEntry → Bool
  | [], [] => true
  | a :: as, b :: bs => a.same b && sameEnv as bs
  | _, _ => false

/-- Whether two templates differ in their own record; their nodes are compared one by one. -/
def templateDiffers (old new : Template) : Bool :=
  old.name != new.name || old.inputs != new.inputs || old.outputs != new.outputs ||
    old.status != new.status || old.complete != new.complete || !sameEnv old.env new.env

def tabDiffers (old new : FlowConfig) : Bool :=
  old.label != new.label || !sameEnv old.env new.env || old.disabled != new.disabled

/-! ## Marking -/

/-- The marks so far. `templates` are the changed templates whose users are still to be marked. -/
structure Marks where
  added : TextSet
  changed : TextSet
  removed : TextSet
  rewired : TextSet
  templates : TextSet
  deriving DecidableEq, Repr, Inhabited

def Marks.none : Marks := ⟨[], [], [], [], []⟩

/-- Marks the container of a touched node, if the new generation has it. -/
def Marks.touch (m : Marks) (new : Deployment) (container : Option String) : Marks :=
  match container with
  | .none => m
  | some z =>
    if new.tabIds.contains z then { m with changed := m.changed.insert z }
    else if new.templates.contains z then
      { m with changed := m.changed.insert z, templates := m.templates.insert z }
    else m

/-- Whether the new generation has a template of this id. A touched node inside it is not marked itself. -/
def inTemplate (new : Deployment) (container : Option String) : Bool :=
  match container with
  | .none => false
  | some z => !new.tabIds.contains z && new.templates.contains z

/-- Marks a node of the new generation as changed, or only its template if it lies in one. -/
def Marks.change (m : Marks) (new : Deployment) (r : Record) : Marks :=
  let m := m.touch new r.container
  if inTemplate new r.container then { m with changed := m.changed.erase r.id }
  else { m with changed := m.changed.insert r.id }

def Marks.rewire (m : Marks) (new : Deployment) (r : Record) : Marks :=
  let m := m.touch new r.container
  if inTemplate new r.container then { m with rewired := m.rewired.erase r.id }
  else { m with rewired := m.rewired.insert r.id }

def Marks.add (m : Marks) (new : Deployment) (r : Record) : Marks :=
  let m := m.touch new r.container
  if inTemplate new r.container then { m with added := m.added.erase r.id }
  else { m with added := m.added.insert r.id }

def Marks.remove (m : Marks) (new : Deployment) (r : Record) : Marks :=
  { m with removed := m.removed.insert r.id }.touch new r.container

def compareTab (new : Deployment) (m : Marks) (tab : FlowConfig) : Marks :=
  match new.tabs.find? (·.id == tab.id) with
  | .none => { m with removed := m.removed.insert tab.id }
  | some next => if tabDiffers tab next then { m with changed := m.changed.insert tab.id } else m

def compareTemplate (new : Deployment) (m : Marks) (t : Template) : Marks :=
  match new.templates.get? t.id with
  | .none => { m with removed := m.removed.insert t.id }
  | some next =>
    if templateDiffers t next then
      { m with changed := m.changed.insert t.id, templates := m.templates.insert t.id }
    else m

def compareNode (new : Deployment) (m : Marks) (r : Record) : Marks :=
  match new.nodes.get? r.id with
  | .none => m.remove new r
  | some next =>
    let m := if nodeDiffers r next then m.change new next else m
    if r.wires != next.wires then m.rewire new next else m

/-- Marks what the records themselves show. -/
def direct (old new : Deployment) : Marks :=
  let m := old.tabs.foldl (compareTab new) .none
  let m := (new.tabs.filter fun t => !old.tabIds.contains t.id).foldl
    (fun m t => { m with added := m.added.insert t.id }) m
  let m := old.templates.values.foldl (compareTemplate new) m
  let m := (new.templates.values.filter fun t => !old.templates.contains t.id).foldl
    (fun m t => { m with added := m.added.insert t.id }) m
  let m := old.nodes.values.foldl (compareNode new) m
  (new.nodes.values.filter fun r => !old.nodes.contains r.id).foldl (·.add new ·) m

/-- The unmarked nodes that refer to something changed or removed. -/
def affected (new : Deployment) (m : Marks) : List Record :=
  new.nodes.values.filter fun r =>
    !m.changed.contains r.id &&
      r.references.any fun id => id != r.id && (m.changed.contains id || m.removed.contains id)

/-- Marks in rounds the nodes that refer to a marked one, until a round finds none. A node inside a
template is found again in every round, so one that is affected keeps the rounds from ever ending:
then there is no answer, whatever the fuel. -/
def settle? (new : Deployment) : (fuel : Nat) → Marks → Option Marks
  | 0, _ => none
  | fuel + 1, m =>
    match affected new m with
    | [] => some m
    | found => settle? new fuel (found.foldl (·.change new ·) m)

/-- The nodes of the new generation that use a template. -/
def users (new : Deployment) (template : String) : List Record :=
  new.nodes.values.filter fun r => r.templateId? == some template

/-- Marks the users of changed templates, and the users of the templates those lie in. -/
def markUsers (new : Deployment) :
    (fuel : Nat) → (seen pending : List String) → Marks → Marks
  | 0, _, _, m => m
  | _ + 1, _, [], m => m
  | fuel + 1, seen, template :: pending, m =>
    let found := users new template
    let m := found.foldl (·.change new ·) m
    let around := ((found.filter fun r => inTemplate new r.container).filterMap (·.container)).eraseDups
    let fresh := around.filter fun z => !seen.contains z
    markUsers new fuel (fresh ++ seen) (fresh ++ pending) m

/-! ## Links -/

/-- The pairs of ids that the wires of a generation join. -/
def wiresOf (d : Deployment) : List (NodeId × NodeId) :=
  d.nodes.values.flatMap fun r => r.outputs.flatten.map fun target => (r.id, target)

def neighbours (links : List (NodeId × NodeId)) (id : NodeId) : List NodeId :=
  links.flatMap fun (a, b) =>
    (if a = id then [b] else []) ++ (if b = id then [a] else [])

/-- Every id that links join to one in `seen` or `pending`. Each step takes one pending id. -/
def reach (links : List (NodeId × NodeId)) :
    (fuel : Nat) → (seen pending : List NodeId) → List NodeId
  | 0, seen, _ => seen
  | _ + 1, seen, [] => seen
  | fuel + 1, seen, id :: pending =>
    let fresh := ((neighbours links id).filter fun n => !seen.contains n).eraseDups
    reach links fuel (fresh ++ seen) (fresh ++ pending)

/-- The untouched ids in reach of a touched one. -/
def linkedTo (links : List (NodeId × NodeId)) (touched : List NodeId) : TextSet :=
  TextSet.ofList ((reach links (touched.length + 2 * links.length + 1) touched touched).filter
    fun id => !touched.contains id)

def finish (old new : Deployment) (m : Marks) : Diff :=
  let m := markUsers new (new.templates.length + 1) m.templates m.templates m
  let touched := (m.added ++ m.changed ++ m.removed ++ m.rewired).eraseDups
  { added := m.added
    changed := m.changed
    removed := m.removed
    rewired := m.rewired
    linked := linkedTo (wiresOf old ++ wiresOf new) touched }

/-- The difference between two generations. There is none if marking by reference never settles, which
happens when a node inside a template of the new generation refers to something changed or removed. -/
def between? (old new : Deployment) : Option Diff :=
  (settle? new (new.nodes.length + 1) (direct old new)).map (finish old new)

end Diff
end Flowgraph
