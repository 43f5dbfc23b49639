import Flowgraph.Kind.Basic
import Flowgraph.Level.Dispatch
import Flowgraph.Level.Expansion
import Flowgraph.Config.Diff
import Flowgraph.Config.StartOrder
/-! The state of an engine: levels of flows, their nodes, what is under way, and what has been published.

An engine is a machine that takes small steps. What is to be done at once stands on its agenda, the most
urgent first; work for later waits in tasks, timers and calls. -/
namespace Flowgraph

/-- A level by its place among all levels that were ever made; an enclosing level has the smaller key. -/
abbrev LevelKey := Nat

/-- A node by its creation index among all nodes that were ever made. -/
abbrev NodeKey := Nat

abbrev TaskKey := Nat
abbrev CallKey := Nat

/-! ## Levels and nodes -/

inductive Phase
  | created
  | started
  | stopping
  | stopped
  deriving DecidableEq, Repr

inductive LevelKind
  | tab
  | global
  /-- The expansion of a template for one usage node. -/
  | expansion (binding : Binding)
  deriving DecidableEq

inductive PortKind
  | status
  | complete
  deriving DecidableEq, Repr

/-- What stands behind a node. -/
inductive Part
  | ordinary (behaviour : Behaviour)
  /-- Passes on what it is handed: the receivers of signals, and the input of an instance. -/
  | relay
  /-- Stands for a usage node and hands everything to the input of its instance. -/
  | standIn (inst : LevelKey)
  /-- Ends the status or complete port of an instance. -/
  | sink (port : PortKind)

/-- A live node. -/
structure Node where
  /-- Its record with tokens resolved. -/
  record : Record
  level : LevelKey
  part : Part
  dispatch : Dispatch
  /-- Set when the node is told to stop; it handles no message from then on. -/
  cancelled : Bool
  /-- The close signal, once it has been given. -/
  signal : Option CloseResult
  /-- Whether the node has ever started a task. -/
  hasTasks : Bool

def Node.id (n : Node) : NodeId := n.record.id

def Node.origin (n : Node) : Origin := Origin.ofRecord n.record

/-- Nodes of the engine itself never complete the messages they handle. -/
def Node.completes (n : Node) : Bool :=
  match n.part with
  | .ordinary _ => true
  | _ => false

/-- One level of a flow: a tab, the global flow, or one instance of a template. -/
structure Level where
  id : String
  kind : LevelKind
  /-- The level around it; the outermost levels have none. -/
  parent : Option LevelKey
  config : FlowConfig
  phase : Phase
  active : Dict NodeKey
  /-- The instances of active usage nodes. -/
  instances : Dict LevelKey
  /-- Why enabled nodes could not be made. -/
  failures : Dict NodeFault
  receivers : Receivers
  env : Dict Json

def Level.make (kind : LevelKind) (parent : Option LevelKey) (config : FlowConfig) : Level :=
  ⟨config.id, kind, parent, config, .created, [], [], [], .none, []⟩

/-! ## Events -/

inductive Event
  | flowStarted (flow : String) (active : Nat)
  | flowStopped (flow : String) (closed timedOut : Nat)
  | nodeStatus (flow : String) (node : NodeId) (status : Status)
  | nodeFailed (flow : String) (node : NodeId) (type : String) (fault : NodeFault)
  | nodeClosed (flow : String) (node : NodeId) (removed : Bool)
  | nodeCloseTimedOut (flow : String) (node : NodeId) (ms : Nat)
  | unhandledError (node : NodeId) (text : String)
  deriving DecidableEq, Repr

/-- The node an event is about. -/
def Event.node? : Event → Option NodeId
  | .flowStarted .. | .flowStopped .. => none
  | .nodeStatus _ node _ | .nodeFailed _ node _ _ | .nodeClosed _ node _
  | .nodeCloseTimedOut _ node _ | .unhandledError node _ => some node

/-- Someone who reads the events as they are published. -/
structure Reader where
  /-- How many events are kept for the reader. One who falls behind by more never reads again. -/
  capacity : Nat
  read : List Event
  behind : Bool

/-- The newest events, as many as are kept, and how many are missing before them. -/
def newestEvents (capacity : Nat) (events : List Event) : Nat × List Event :=
  let missed := events.length - capacity
  (missed, events.drop missed)

/-! ## Stops -/

/-- The outcome of a stop, with the nodes inside stopped instances. -/
structure StopReport where
  closed : List NodeId
  timedOut : List NodeId
  failed : List (NodeId × NodeFault)
  deriving DecidableEq, Repr, Inhabited

namespace StopReport

def empty : StopReport := ⟨[], [], []⟩

def append (a b : StopReport) : StopReport :=
  ⟨a.closed ++ b.closed, a.timedOut ++ b.timedOut, a.failed ++ b.failed⟩

instance : Append StopReport := ⟨append⟩

/-- Every node that is no longer active, however its close ended. -/
def stopped (r : StopReport) : List NodeId := r.closed ++ r.timedOut ++ r.failed.map (·.1)

end StopReport

/-- Which of the stopped nodes are told that they are being deleted. -/
inductive Removal
  | none
  | all
  | ids (ids : List NodeId)
  deriving DecidableEq, Repr

def Removal.holds : Removal → NodeId → Bool
  | .none, _ => false
  | .all, _ => true
  | .ids listed, id => listed.contains id

mutual
/-- The close of one node that has been taken out of its level. -/
inductive Closing
  /-- The instance of a usage node stops before the node itself is asked to close. -/
  | inner (node : NodeKey) (removed : Bool) (stop : Stopping)
  /-- The node has been asked and may signal until the deadline. The report is of its instance. -/
  | asked (node : NodeKey) (removed : Bool) (deadline : Nat) (report : StopReport)
  | done (report : StopReport)

/-- A stop of one level under way, or its report. -/
inductive Stopping
  | running (level : LevelKey) (full : Bool) (previous : Phase) (backward : Bool)
      (closings : List Closing)
  | finished (report : StopReport)
end

instance : Inhabited Closing := ⟨.done .empty⟩
instance : Inhabited Stopping := ⟨.finished .empty⟩

mutual
/-- The levels that a stop under way keeps alive. -/
def Closing.levels : Closing → List LevelKey
  | .inner _ _ stop => stop.levels
  | .asked .. | .done _ => []
termination_by structural c => c

def Stopping.levels : Stopping → List LevelKey
  | .running level _ _ _ closings => level :: Stopping.levelsOf closings
  | .finished _ => []
termination_by structural s => s

def Stopping.levelsOf : List Closing → List LevelKey
  | [] => []
  | c :: cs => c.levels ++ Stopping.levelsOf cs
termination_by structural cs => cs
end

mutual
/-- The nodes whose close is under way. -/
def Closing.nodes : Closing → List NodeKey
  | .inner node _ stop => node :: stop.nodes
  | .asked node .. => [node]
  | .done _ => []
termination_by structural c => c

def Stopping.nodes : Stopping → List NodeKey
  | .running _ _ _ _ closings => Stopping.nodesOf closings
  | .finished _ => []
termination_by structural s => s

def Stopping.nodesOf : List Closing → List NodeKey
  | [] => []
  | c :: cs => c.nodes ++ Stopping.nodesOf cs
termination_by structural cs => cs
end

/-- What a stop is asked for: a level, the nodes to stop (all if none are given), and the deleted ones. -/
structure StopRequest where
  level : LevelKey
  filter : Option (List NodeId)
  removal : Removal

/-! ## Calls -/

/-- One part of a call. The parts of a call follow each other; where one waits for stops, other work goes
on. -/
inductive Stage
  /-- Stops levels side by side. -/
  | stop (requests : List StopRequest)
  /-- Stops, side by side, what is active of the given nodes. -/
  | stopAmong (levels : List LevelKey) (ids removed : List NodeId)
  | start (level : LevelKey) (diff : Option Diff)
  /-- The part of a start that follows the stop of what the diff touches. -/
  | apply (level : LevelKey) (config : FlowConfig) (diff : Option Diff)
  | update (level : LevelKey) (config : FlowConfig)
  | deployNodes (previous next : Deployment) (diff : Diff)
  | stopAll
  | startAll (next : Deployment)
  /-- Makes a tab's flow, unless it is disabled, and starts it. -/
  | startTab (config : FlowConfig) (listed : Bool)
  /-- Enters a started flow among the running ones. -/
  | enlist (level : LevelKey)
  /-- Remembers a flow as one of the new generation. -/
  | gather (level : LevelKey)
  /-- The gathered flows become the running ones. -/
  | enlistGathered
  | commit (next : Deployment)
  | withdraw
  /-- Waits for ever. -/
  | stuck

/-- A call under way, or finished when it has no stages left. -/
structure Call where
  stages : List Stage
  /-- The stops its present stage waits for. -/
  waiting : List Stopping
  report : StopReport
  /-- Flows of the new generation. -/
  gathered : List LevelKey
  /-- Levels the call keeps alive until it ends. -/
  holds : List LevelKey
  began : Nat
  ended : Option Nat
  fault : Option FlowFault

def Call.make (stages : List Stage) (now : Nat) : Call :=
  ⟨stages, [], .empty, [], [], now, none, none⟩

/-! ## The agenda -/

inductive Action
  /-- Hands a message to a node. -/
  | hand (node : NodeKey) (message : Message)
  /-- Hands a message to a node of this level alone. -/
  | handAt (level : LevelKey) (id : NodeId) (message : Message)
  /-- Delivers a message sent over a wire. -/
  | deliver (level : LevelKey) (id : NodeId) (message : Message)
  | effect (node : NodeKey) (effect : Effect)
  /-- Ends the handling of a message, when all it led to has been done. -/
  | conclude (node : NodeKey) (message : Message) (outcome : Outcome)
  /-- Makes a node, unless it is active. -/
  | create (level : LevelKey) (record : Record) (templates : Templates)
  /-- Enters a usage node whose instance has been activated. -/
  | install (level : LevelKey) (record : Record) (inst : LevelKey)
  /-- Builds the table of receivers anew. -/
  | refresh (level : LevelKey)
  | announce (level : LevelKey)
  | finishTask (task : TaskKey)
  /-- Goes on with a call. -/
  | resume (call : CallKey)

/-! ## Waiting -/

/-- A task that has not finished. -/
structure Pending where
  key : TaskKey
  owner : NodeKey
  task : Task
  /-- When its time is up, once it has begun to wait. -/
  due : Option Nat

/-- What can be woken. -/
inductive Waiter
  | task (key : TaskKey)
  | call (key : CallKey)
  | reader
  deriving DecidableEq, Repr

/-- What happens at the end of a time. -/
inductive Alarm
  | task (key : TaskKey)
  /-- The time of a node to close is over. -/
  | deadline (call : CallKey) (node : NodeKey)
  deriving DecidableEq, Repr

structure Timer where
  due : Nat
  alarm : Alarm
  deriving DecidableEq, Repr

/-! ## The engine -/

/-- What lies outside all flows. -/
inductive Outside
  /-- A flow run on its own: what leaves it is noted. -/
  | standalone
  /-- Flows run together: a node is found in all of them, and errors that leave one are published. -/
  | shared
  deriving DecidableEq, Repr

structure Engine where
  registry : Registry
  outside : Outside
  /-- The settings around all flows, consulted before the variables of the process. -/
  settings : Dict Json
  processEnv : Dict String
  closeTimeout : Nat
  levels : Array Level
  nodes : Array Node
  nextPrivate : Nat
  nextMessage : Nat
  agenda : List Action
  now : Nat
  nextTask : TaskKey
  tasks : List Pending
  timers : List Timer
  /-- What has been woken, in order. -/
  ready : List Waiter
  /-- How many more closes can end in the present turn. -/
  room : Nat
  /-- What has run out of room in its turn, the last one first. -/
  putOff : List Waiter
  nextCall : CallKey
  calls : List (CallKey × Call)
  /-- The running deployment. -/
  deployed : Option Deployment
  global : Option LevelKey
  flows : List LevelKey
  /-- Levels that are kept from outside. -/
  keptLevels : List LevelKey
  /-- Nodes that are kept from outside, by address. -/
  keptNodes : Dict NodeKey
  notes : List Note
  /-- The events that have been published and not been read. -/
  events : List Event
  reader : Option Reader
  /-- Set when an expansion met a port number out of range; nothing is done from then on. -/
  broken : Bool

namespace Engine

/-- How many closes can end in one turn, or how many events can be read. -/
def turnRoom : Nat := 128

def make (registry : Registry) (outside : Outside) (settings : Dict Json) (processEnv : Dict String)
    (closeTimeout : Nat) : Engine where
  registry
  outside
  settings
  processEnv
  closeTimeout
  levels := #[]
  nodes := #[]
  nextPrivate := 0
  nextMessage := 0
  agenda := []
  now := 0
  nextTask := 0
  tasks := []
  timers := []
  ready := []
  room := turnRoom
  putOff := []
  nextCall := 0
  calls := []
  deployed := none
  global := none
  flows := []
  keptLevels := []
  keptNodes := []
  notes := []
  events := []
  reader := none
  broken := false

def level? (e : Engine) (k : LevelKey) : Option Level := e.levels[k]?

def node? (e : Engine) (k : NodeKey) : Option Node := e.nodes[k]?

def modifyLevel (e : Engine) (k : LevelKey) (f : Level → Level) : Engine :=
  { e with levels := e.levels.modify k f }

def modifyNode (e : Engine) (k : NodeKey) (f : Node → Node) : Engine :=
  { e with nodes := e.nodes.modify k f }

/-- Puts actions before all others. -/
def push (e : Engine) (actions : List Action) : Engine :=
  { e with agenda := actions ++ e.agenda }

def note (e : Engine) (notes : List Note) : Engine :=
  { e with notes := e.notes ++ notes }

def addLevel (e : Engine) (l : Level) : Engine × LevelKey :=
  ({ e with levels := e.levels.push l }, e.levels.size)

/-- Wakes something, unless it has been woken already. -/
def wake (e : Engine) (w : Waiter) : Engine :=
  if e.ready.contains w then e else { e with ready := e.ready ++ [w] }

def publish (e : Engine) (event : Event) : Engine :=
  let e := { e with events := e.events ++ [event] }
  if e.reader.isSome then e.wake .reader else e

def call? (e : Engine) (k : CallKey) : Option Call :=
  (e.calls.find? (·.1 == k)).map (·.2)

def setCall (e : Engine) (k : CallKey) (c : Call) : Engine :=
  { e with calls := e.calls.map fun entry => if entry.1 = k then (k, c) else entry }

end Engine
end Flowgraph
