import Flowgraph.Engine.Routing
/-! Messages reach nodes, and what nodes do with them takes effect. -/
namespace Flowgraph.Engine

/-! ## Tasks -/

/-- The unfinished tasks of a node. -/
def tasksOf (e : Engine) (owner : NodeKey) : List Pending := e.tasks.filter (·.owner == owner)

def startTask (e : Engine) (owner : NodeKey) (task : Task) : Engine :=
  let key := e.nextTask
  let pending : Pending := ⟨key, owner, task, none⟩
  ({ e with nextTask := key + 1, tasks := e.tasks ++ [pending] }.modifyNode owner
    fun n => { n with hasTasks := true }).wake (.task key)

/-- The tasks that wait for all others of their node and now have no others. -/
def unblocked (e : Engine) (owner : NodeKey) : List TaskKey :=
  match e.tasksOf owner with
  | [p] => if p.task.wait = .others then [p.key] else []
  | _ => []

def finishTask (e : Engine) (key : TaskKey) : Engine :=
  match e.tasks.find? (·.key == key) with
  | none => e
  | some p =>
    let e := { e with tasks := e.tasks.filter (·.key != key) }
    (e.unblocked p.owner).foldl (fun e key => e.wake (.task key)) e

/-! ## Effects -/

/-- Enters the signal of a node; only the first counts. -/
def noteSignal (e : Engine) (k : NodeKey) (result : CloseResult) : Engine :=
  e.modifyNode k fun n => { n with signal := n.signal <|> some result }

/-- Takes the close signal of a node, which wakes the calls that wait for it. -/
def signalClosed (e : Engine) (k : NodeKey) (result : CloseResult) : Engine :=
  let e := e.noteSignal k result
  (e.calls.filter fun entry => entry.2.waiting.any fun s => s.nodes.contains k).foldl
    (fun e entry => e.wake (.call entry.1)) e

/-- Sends a message over every wire of a port, in their order. -/
def sendFrom (e : Engine) (n : Node) (port : Nat) (m : Message) : Engine :=
  e.push ((n.dispatch.targets port).map fun t => .deliver n.level t.node m)

/-- What a node does reaches others only while its level exists. -/
def perform (e : Engine) (k : NodeKey) (effect : Effect) : Engine :=
  match e.node? k with
  | none => e
  | some n =>
    match effect with
    | .note entry => e.note [entry]
    | .closed result => e.signalClosed k result
    | .send port m => if e.hasLevel n.level then e.sendFrom n port m else e
    | .status status =>
      match e.level? n.level, e.hasLevel n.level with
      | some l, true =>
        ((e.publish (.nodeStatus l.id n.id status)).raise n.level n.origin (.status status)).1
      | _, _ => e
    | .error text about =>
      if e.hasLevel n.level then (e.raise n.level n.origin (.error text about)).1 else e
    | .complete m =>
      if e.hasLevel n.level then (e.raise n.level n.origin (.complete m)).1 else e

/-- A message at the status or complete port of an instance is a signal of its usage node. -/
def reportPort (e : Engine) (inst : LevelKey) (port : PortKind) (m : Message) : Engine :=
  match e.binding? inst, e.enclosing? inst with
  | some b, some p =>
    match e.level? p with
    | none => e
    | some around =>
      let origin := Origin.ofRecord b.usage
      match port with
      | .status =>
        let status := Status.ofMessage m
        ((e.publish (.nodeStatus around.id origin.id status)).raise p origin (.status status)).1
      | .complete => (e.raise p origin (.complete m)).1
  | _, _ => e

/-! ## Handling -/

/-- Calls the input hook of a node. One that has been told to stop drops the message. -/
def hand (e : Engine) (k : NodeKey) (m : Message) : Engine :=
  match e.node? k with
  | none => e
  | some n =>
    if n.cancelled then e
    else match n.part with
      | .ordinary b =>
        let reaction := b.onInput ⟨e.nodeSetting n, (e.tasksOf k).length⟩ m
        let e := reaction.tasks.foldl (fun e task => e.startTask k task) e
        e.push (reaction.effects.map (.effect k) ++ [.conclude k m reaction.outcome])
      | .relay => e.push [.effect k (.send 0 m)]
      | .standIn inst =>
        match e.binding? inst with
        | some b => e.push [.handAt inst b.input m]
        | none => e
      | .sink port => if e.hasLevel n.level then e.reportPort n.level port m else e

def handAt (e : Engine) (k : LevelKey) (id : NodeId) (m : Message) : Engine :=
  match e.activeKey? k id with
  | some n => e.push [.hand n m]
  | none => e

/-- A wire leads to the nearest active node of its id, on this level or further out. -/
def deliver (e : Engine) (k : LevelKey) (id : NodeId) (m : Message) : Engine :=
  match e.outward? k id with
  | some n => e.push [.hand n m]
  | none => e

/-- A message that was handled is complete; one whose handling failed raises an error about it. -/
def conclude (e : Engine) (k : NodeKey) (m : Message) : Outcome → Engine
  | .handled =>
    match e.node? k with
    | some n => if n.completes then e.perform k (.complete m) else e
    | none => e
  | .deferred => e
  | .failed fault => e.perform k (.error fault.message (some m))

end Flowgraph.Engine
