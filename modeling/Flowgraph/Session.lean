import Flowgraph.Engine.Clock
/-! A session: an engine and someone who works with it step by step, either on one flow that runs on its own
or on a runtime that deploys several. The user names nodes by address and keeps the newest node seen under
each address, active or not. -/
namespace Flowgraph

structure Session where
  engine : Engine
  /-- The flow of a session on a single flow. -/
  root : Option LevelKey
  /-- The deployment whose records were accepted last. -/
  accepted : Deployment
  /-- The stops that have begun and that nobody has waited for. -/
  begun : List CallKey

/-- A session's view of one node. -/
structure Description where
  node : Node
  index : NodeKey

/-- The outcome of a stop and the time it took. -/
structure StopResult where
  report : StopReport
  elapsed : Nat
  deriving DecidableEq, Repr

namespace Session

/-! ## Beginning -/

/-- A session on a flow of a deployment, which is made but not started. -/
def onFlow? (engine : Engine) (d : Deployment) (flow : Option String) : Option Session := do
  let config ← match flow with
    | some id => d.flow? id
    | none => d.tabs.head?
  let kind := if flow = some Deployment.globalId then LevelKind.global else .tab
  let (e, k) := engine.addLevel (.make kind none config)
  return ⟨{ e with keptLevels := [k] }, some k, d, []⟩

/-- A session on a runtime with nothing deployed. -/
def onRuntime (engine : Engine) : Session := ⟨engine, none, .empty, []⟩

/-! ## Looking around -/

/-- The outermost levels, the global flow first. -/
def flows (s : Session) : List LevelKey :=
  match s.root with
  | some k => [k]
  | none => s.engine.global.toList ++ s.engine.flows

/-- The addresses of all nodes inside instances, of the newest instances first. -/
def addresses (s : Session) : List (NodeId × String) :=
  let e := s.engine
  (List.range e.levelCount).reverse.flatMap fun k =>
    match e.binding? k with
    | none => []
    | some b =>
      (b.names.map (·.2) ++ b.input :: (b.statusSink.toList ++ b.completeSink.toList)).map fun id =>
        (id, e.address k id)

/-- The id behind an address; in the newest instance if there are several. -/
def idAt (s : Session) (address : String) : NodeId :=
  match s.addresses.find? (·.2 == address) with
  | some (id, _) => id
  | none => address

def flow? (s : Session) (id : String) : Option LevelKey :=
  s.flows.find? fun k => s.engine.flowId k == id

/-- The instance of the usage node at an address. -/
def instanceAt? (s : Session) (flows : List LevelKey) (usage : String) : Option LevelKey :=
  let id := s.idAt usage
  let e := s.engine
  (flows.flatMap (e.levelsInside e.levelCount)).findSome? fun k => e.instance? k id

/-- The level a step works on: the instance of a usage node, a flow, or the session's only flow. -/
def place? (s : Session) (flow usage : Option String) : Option LevelKey :=
  let among : Option (List LevelKey) := match s.root, flow with
    | some k, _ => some [k]
    | none, some id => (s.flow? id).map ([·])
    | none, none => if usage.isSome then some s.flows else none
  match among, usage with
  | some flows, some usage => s.instanceAt? flows usage
  | some [k], none => some k
  | _, none => none
  | none, some _ => none

/-- The newest node seen under an address. -/
def kept? (s : Session) (address : String) : Option NodeKey := s.engine.keptNodes.get? address

def describe? (s : Session) (k : NodeKey) : Option Description :=
  (s.engine.node? k).map (⟨·, k⟩)

/-- Keeps every active node as the newest of its address. -/
def keepNodes (s : Session) : Session :=
  let e := s.engine
  let kept := (s.flows.flatMap e.activeInside).foldl (fun kept k =>
    match e.node? k with
    | some n => Dict.insert kept (e.address n.level n.id) k
    | none => kept) e.keptNodes
  { s with engine := { e with keptNodes := kept } }

/-- What was noted and published since the last time, and the session with that taken out. -/
def takeRecords (s : Session) : List Note × List Event × Session :=
  (s.engine.notes, s.engine.events, { s with engine := { s.engine with notes := [], events := [] } })

/-! ## Steps -/

/-- A message with an id of its own, if it brings none. -/
def message (s : Session) (v : Json) : Message × Session :=
  let e := s.engine
  (.ofJson (Message.idText e.nextMessage) v,
    { s with engine := { e with nextMessage := e.nextMessage + 1 } })

def now (s : Session) (actions : List Action) : Session :=
  { s with engine := (s.engine.doNow actions).settle none }

/-- Runs a call to its end. -/
def call (s : Session) (stages : List Stage) : Call × Session :=
  let (e, key) := s.engine.complete stages
  ((e.call? key).getD (.make [] e.now), { s with engine := e })

def outcome (c : Call) : Except FlowFault Unit :=
  match c.fault with
  | some fault => .error fault
  | none => .ok ()

def stopResult (c : Call) : StopResult := ⟨c.report, c.ended.getD c.began - c.began⟩

def start (s : Session) (k : LevelKey) (diff : Option Diff) : Except FlowFault Unit × Session :=
  let (c, s) := s.call [.start k diff]
  (outcome c, s)

def stopStages (k : LevelKey) (ids removed : Option (List NodeId)) : List Stage :=
  [.stop [⟨k, ids, match removed with
    | some ids => .ids ids
    | none => .none⟩]]

def stop (s : Session) (k : LevelKey) (ids removed : Option (List NodeId)) : StopResult × Session :=
  let (c, s) := s.call (stopStages k ids removed)
  (stopResult c, s)

def stopAll (s : Session) : StopResult × Session :=
  let (c, s) := s.call Engine.stagesOfStopAll
  (stopResult c, s)

/-- Begins a call without waiting for it. -/
def beginCall (s : Session) (stages : List Stage) : Session :=
  let (e, key) := s.engine.begin stages
  { s with engine := e.settle none, begun := s.begun ++ [key] }

/-- Waits for all stops that have begun. -/
def awaitStops (s : Session) : List StopResult × Session :=
  let e := s.engine.awaitCalls s.begun
  ((s.begun.filterMap e.call?).map stopResult, { s with engine := e, begun := [] })

def advance (s : Session) (ms : Nat) : Session := { s with engine := s.engine.advance ms }

/-- Hands a message to an active node of a level or of the instances inside it. -/
def inject (s : Session) (k : LevelKey) (id : NodeId) (m : Message) : Except FlowFault Unit × Session :=
  match s.engine.inside? k id with
  | some n => (.ok (), s.now [.hand n m])
  | none => (.error (.inactiveIn id (s.engine.flowId k)), s)

/-- Hands a message to an active node wherever it is. -/
def injectAnywhere (s : Session) (id : NodeId) (m : Message) : Except FlowFault Unit × Session :=
  match s.engine.anywhere? id with
  | some n => (.ok (), s.now [.hand n m])
  | none => (.error (.inactive id), s)

/-- Raises a signal at a level; tells whether a receiver takes it. -/
def signal (s : Session) (k : LevelKey) (origin : Origin) (signal : Signal) : Bool × Session :=
  let (e, taken) := s.engine.raise k origin signal
  (taken, { s with engine := e.finish.settle none })

/-- Lets a node do something, active or not. -/
def perform (s : Session) (k : NodeKey) (effect : Effect) : Session := s.now [.effect k effect]

/-- Takes new records for the session's flow: its configuration is replaced, and the difference to the
records accepted before tells what changes. There is no result if the records no longer have the flow. -/
def update (s : Session) (k : LevelKey) (records : List Json) :
    Option (Except ConfigFault Diff) × Session :=
  match Deployment.parse records with
  | .error fault => (some (.error fault), s)
  | .ok next =>
    match next.flow? (s.engine.flowId k), Diff.between? s.accepted next with
    | some config, some diff =>
      (some (.ok diff), { s with
        accepted := next
        engine := s.engine.modifyLevel k fun l => { l with config } })
    | _, _ => (none, s)

def load (s : Session) (records : List Json) : Except FlowFault Unit × Session :=
  match s.engine.stagesOfLoad records with
  | .error fault => (.error fault, s)
  | .ok stages =>
    let (c, s) := s.call stages
    (outcome c, s)

/-- Replaces the deployment; gives the difference and the time it took. -/
def deploy (s : Session) (records : List Json) (kind : Engine.DeployKind) :
    Except FlowFault (Diff × Nat) × Session :=
  match s.engine.stagesOfDeploy records kind with
  | .error fault => (.error fault, s)
  | .ok (stages, diff) =>
    let (c, s) := s.call stages
    ((outcome c).map fun _ => (diff, (stopResult c).elapsed), s)

end Session
end Flowgraph
