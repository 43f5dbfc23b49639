import Flowgraph.Engine.State
/-! Finding nodes, levels and settings. Levels are searched with as much fuel as there are levels, since an
enclosing level always has the smaller key. -/
namespace Flowgraph

/-- The name of a node inside its instance: that of its record in the template, or its role. -/
def Binding.localName? (b : Binding) (id : NodeId) : Option String :=
  match b.aliasOf? id with
  | some name => some name
  | none =>
    if id = b.input then some "#in"
    else if b.statusSink = some id then some "#status"
    else if b.completeSink = some id then some "#complete"
    else none

/-- The part of a name behind the mark that sends a lookup one level further out. -/
def outerSettingName? (name : String) : Option String :=
  let mark := "$parent.".toList
  let cs := name.toList
  if mark.isPrefixOf cs then some (String.ofList (cs.drop mark.length)) else none

/-- What a level says of itself under reserved names. -/
def Level.reserved? (l : Level) (name : String) : Option Json :=
  match l.kind, name with
  | .tab, "FLOW_ID" => some (.str l.id)
  | .tab, "FLOW_NAME" => l.config.label.map .str
  | .expansion b, "NODE_ID" => some (.str b.usage.id)
  | .expansion b, "NODE_NAME" => b.usage.name?.map .str
  | _, _ => none

namespace Engine

def levelCount (e : Engine) : Nat := e.levels.size

/-! ## Which levels still exist

A level exists while something keeps it: the list of running flows, a call or a stop under way, someone
outside, or the usage node whose instance it is. A level that is gone neither routes nor answers. -/

/-- Whether a node is kept by itself, active or not. -/
def keepsNode (e : Engine) (k : NodeKey) : Bool :=
  e.keptNodes.values.contains k ||
    e.calls.any fun entry => entry.2.waiting.any fun s => s.nodes.contains k

/-- Whether a level is kept by something other than the level around it. -/
def keepsLevel (e : Engine) (k : LevelKey) : Bool :=
  e.keptLevels.contains k || e.global == some k || e.flows.contains k ||
    (e.calls.any fun entry =>
      entry.2.holds.contains k || entry.2.waiting.any fun s => s.levels.contains k) ||
    e.agenda.any fun
      | .install _ _ inst => inst == k
      | _ => false

def isStandIn (n : Node) (inst : LevelKey) : Bool :=
  match n.part with
  | .standIn k => k == inst
  | _ => false

/-- The nodes that stand for an instance; there is at most one. -/
def standIns (e : Engine) (inst : LevelKey) : List NodeKey :=
  (e.nodes.toList.zipIdx.filter fun (n, _) => isStandIn n inst).map (·.2)

def existsWithin (e : Engine) : (fuel : Nat) → LevelKey → Bool
  | 0, _ => false
  | fuel + 1, k =>
    match e.level? k with
    | none => false
    | some l =>
      e.keepsLevel k || (e.standIns k).any e.keepsNode ||
        match l.parent with
        | none => false
        | some p =>
          existsWithin e fuel p &&
            match e.level? p with
            | none => false
            | some around =>
              around.instances.values.contains k ||
                (e.standIns k).any around.active.values.contains

def hasLevel (e : Engine) (k : LevelKey) : Bool := e.existsWithin e.levelCount k

/-- The level around a level, if it has one that still exists. -/
def enclosing? (e : Engine) (k : LevelKey) : Option LevelKey :=
  ((e.level? k).bind (·.parent)).filter e.hasLevel

/-! ## Addresses -/

/-- The binding of an instance. -/
def binding? (e : Engine) (k : LevelKey) : Option Binding :=
  match e.level? k with
  | none => none
  | some l =>
    match l.kind with
    | .expansion b => some b
    | _ => none

/-- Where a node is: its own id on an outermost level, and the address of the usage node and its name in
the template inside an instance. -/
def addressWithin (e : Engine) : (fuel : Nat) → LevelKey → NodeId → String
  | 0, _, id => id
  | fuel + 1, k, id =>
    match e.level? k with
    | none => id
    | some l =>
      match l.kind, l.parent with
      | .expansion b, some p =>
        match b.localName? id with
        | some name => addressWithin e fuel p b.usage.id ++ "/" ++ name
        | none => id
      | _, _ => id

def address (e : Engine) (k : LevelKey) (id : NodeId) : String := e.addressWithin e.levelCount k id

/-! ## Nodes -/

def activeKey? (e : Engine) (k : LevelKey) (id : NodeId) : Option NodeKey :=
  (e.level? k).bind fun l => l.active.get? id

/-- Searches a level and the instances inside it. -/
def findInside (e : Engine) : (fuel : Nat) → LevelKey → NodeId → Option NodeKey
  | 0, _, _ => none
  | fuel + 1, k, id =>
    match e.level? k with
    | none => none
    | some l =>
      match l.active.get? id with
      | some n => some n
      | none => l.instances.values.findSome? fun inst => findInside e fuel inst id

def inside? (e : Engine) (k : LevelKey) (id : NodeId) : Option NodeKey :=
  e.findInside e.levelCount k id

/-- Searches the global flow and then the running flows, with all their instances. -/
def anywhere? (e : Engine) (id : NodeId) : Option NodeKey :=
  match e.global.bind fun g => e.inside? g id with
  | some n => some n
  | none => e.flows.findSome? fun f => e.inside? f id

def findOutward (e : Engine) : (fuel : Nat) → LevelKey → NodeId → Option NodeKey
  | 0, _, _ => none
  | fuel + 1, k, id =>
    match e.level? k with
    | none => none
    | some l =>
      match l.active.get? id with
      | some n => some n
      | none =>
        match l.parent with
        | some p => if e.hasLevel p then findOutward e fuel p id else none
        | none =>
          match e.outside with
          | .standalone => none
          | .shared => e.anywhere? id

/-- Searches a level, then those around it, and then everything. -/
def outward? (e : Engine) (k : LevelKey) (id : NodeId) : Option NodeKey :=
  e.findOutward e.levelCount k id

/-- The levels inside a level, itself first. -/
def levelsInside (e : Engine) : (fuel : Nat) → LevelKey → List LevelKey
  | 0, _ => []
  | fuel + 1, k =>
    match e.level? k with
    | none => []
    | some l => k :: l.instances.values.flatMap (levelsInside e fuel)

/-- The active nodes of a level and of all instances inside it, by creation index. -/
def activeInside (e : Engine) (k : LevelKey) : List NodeKey :=
  let keys := (e.levelsInside e.levelCount k).flatMap fun k =>
    ((e.level? k).map fun l => l.active.values).getD []
  keys.mergeSort (· ≤ ·)

/-- The instance of an active usage node. -/
def instance? (e : Engine) (k : LevelKey) (usage : NodeId) : Option LevelKey :=
  (e.level? k).bind fun l => l.instances.get? usage

/-- The active node of an instance that was made for a node of the template. -/
def byName? (e : Engine) (k : LevelKey) (name : NodeId) : Option NodeKey :=
  ((e.binding? k).bind fun b => b.privateOf? name).bind (e.activeKey? k)

/-! ## Settings -/

/-- A setting around all flows: declared, or a variable of the process. -/
def outerSetting (e : Engine) : Lookup := fun name =>
  match e.settings.get? name with
  | some v => some v
  | none => (e.processEnv.get? name).map .str

/-- Looks a name up from a level outward. A level around that no longer exists ends the search. -/
def settingFrom (e : Engine) : (fuel : Nat) → LevelKey → Lookup
  | 0, _, _ => none
  | fuel + 1, k, name =>
    match e.level? k with
    | none => none
    | some l =>
      let further (name : String) : Option Json :=
        match l.parent with
        | none => e.outerSetting name
        | some p => if e.hasLevel p then settingFrom e fuel p name else none
      match outerSettingName? name with
      | some rest => further rest
      | none =>
        match l.reserved? name with
        | some v => some v
        | none =>
          match l.env.get? name with
          | some v => some v
          | none => further name

def setting (e : Engine) (k : LevelKey) : Lookup := e.settingFrom e.levelCount k

/-- Looks a name up around a level. -/
def settingAround (e : Engine) (k : LevelKey) : Lookup := fun name =>
  match e.level? k with
  | none => none
  | some l =>
    match l.parent with
    | none => e.outerSetting name
    | some p => if e.hasLevel p then e.setting p name else none

/-- What a node sees of the settings; nothing once its level is gone. -/
def nodeSetting (e : Engine) (n : Node) : Lookup := fun name =>
  if e.hasLevel n.level then e.setting n.level name else none

end Engine
end Flowgraph
