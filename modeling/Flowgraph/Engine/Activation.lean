import Flowgraph.Engine.Delivery
/-! The nodes of a level come into being, in their order; those of an instance before its usage node. -/
namespace Flowgraph.Engine

/-- Creates every enabled node of a level that is not active yet, or says why there is no order to do so. -/
def activate (e : Engine) (k : LevelKey) : Except ConfigFault Engine :=
  match e.level? k with
  | none => .ok e
  | some l => do
    let order ← StartOrder.resolve l.config.nodes
    let env := Scope.evaluate (e.settingAround k) l.config.env
    let creations := (order.filterMap fun pos => l.config.nodes[pos]?).map fun r =>
      Action.create k r l.config.templates
    return (e.modifyLevel k fun l => { l with env }).push (creations ++ [.refresh k])

/-- The receivers among the active nodes of a level, in the order of their creation. -/
def receiverRecords (e : Engine) (l : Level) : List Record :=
  (l.active.values.mergeSort (· ≤ ·)).filterMap fun k =>
    ((e.node? k).map (·.record)).filter fun r => isReceiverType r.type

def refresh (e : Engine) (k : LevelKey) : Engine :=
  match e.level? k with
  | none => e
  | some l =>
    let receivers := Receivers.ofRecords (e.receiverRecords l)
    e.modifyLevel k fun l => { l with receivers }

/-- Enters a node among the active ones and calls its start hook. -/
def enter (e : Engine) (k : LevelKey) (r : Record) (part : Part) : Engine :=
  let key := e.nodes.size
  let node : Node := ⟨r, k, part, .ofWires r.outputs, false, none, false⟩
  let e := { e with nodes := e.nodes.push node }.modifyLevel k fun l =>
    { l with failures := l.failures.erase r.id, active := l.active.insert r.id key }
  match part with
  | .ordinary b => e.push (b.onStart.map (.effect key))
  | _ => e

/-- Records why a node could not be made; the others are not affected. -/
def failCreation (e : Engine) (k : LevelKey) (r : Record) (fault : NodeFault) : Engine :=
  match e.level? k with
  | none => e
  | some l =>
    (e.publish (.nodeFailed l.id r.id r.type fault)).modifyLevel k fun l =>
      { l with failures := l.failures.insert r.id fault }

/-- The kinds of nodes that belong to the engine itself. -/
def builtIn? (type : String) : Option Part :=
  if isReceiverType type || type == inputType then some .relay
  else if type == statusSinkType then some (.sink .status)
  else if type == completeSinkType then some (.sink .complete)
  else none

/-- Makes the instance of a usage node and activates it. The usage node itself follows when that is done.
A port number out of range breaks the engine. -/
def createInstance (e : Engine) (k : LevelKey) (usage : Record) (t : Template) : Engine :=
  match e.level? k with
  | none => e
  | some l =>
    let b := Binding.make t usage e.nextPrivate
    match b.expand? usage.outputs with
    | none => { e with broken := true, agenda := [] }
    | some nodes =>
      let config : FlowConfig :=
        { id := usage.id, label := none, disabled := false, env := b.envEntries, nodes,
          templates := l.config.templates }
      let (e, inst) := { e with nextPrivate := e.nextPrivate + Binding.idsNeeded t }.addLevel
        { Level.make (.expansion b) (some k) config with phase := .started }
      match (e.push [.install k usage inst]).activate inst with
      | .ok e => e
      | .error fault => e.failCreation k usage (.construction fault.message)

/-- Makes a node from its record, whose tokens are replaced by what they stand for at this level. -/
def create (e : Engine) (k : LevelKey) (r : Record) (templates : Templates) : Engine :=
  if (e.activeKey? k r.id).isSome then e
  else
    let resolved := Scope.resolveRecord (e.setting k) r
    match resolved.templateId? with
    | some id =>
      match templates.get? id with
      | none => e.failCreation k r (.construction ("Unknown subflow template: " ++ id))
      | some t => e.createInstance k resolved t
    | none =>
      match builtIn? resolved.type with
      | some part => e.enter k resolved part
      | none =>
        match e.registry.create resolved with
        | .ok (b, notes) => (e.note notes).enter k resolved (.ordinary b)
        | .error fault => e.failCreation k r fault

/-- Enters a usage node together with its instance. -/
def install (e : Engine) (k : LevelKey) (usage : Record) (inst : LevelKey) : Engine :=
  (e.modifyLevel k fun l => { l with instances := l.instances.insert usage.id inst }).enter k usage
    (.standIn inst)

def announce (e : Engine) (k : LevelKey) : Engine :=
  match e.level? k with
  | none => e
  | some l => e.publish (.flowStarted l.id l.active.length)

end Flowgraph.Engine
