import Flowgraph.Level.Signal
import Flowgraph.Config.Scope
import Flowgraph.Fault
/-! Kinds of nodes. A hook of a node is a function from what it sees to what it wants done; the engine does
it. Work that outlives a hook is handed over as a task. -/
namespace Flowgraph

/-- What instrumented nodes and the place outside all flows record. -/
inductive Note
  | created (node : NodeId)
  | started (node : NodeId)
  | received (node : NodeId) (message : Message)
  | rewired (node : NodeId) (wires : Wires)
  | closing (node : NodeId) (removed : Bool)
  | closed (node : NodeId)
  | resumed (node : NodeId) (cancelled : Bool)
  | errorLeft (origin : Origin) (text : String) (about : Option Message)
  | statusLeft (origin : Origin) (status : Status)
  | completeLeft (origin : Origin) (message : Message)
  deriving DecidableEq

/-- How the close of a node resolves when it signals. -/
abbrev CloseResult := Except NodeFault Unit

/-- Something a hook or a task has done. -/
inductive Effect
  | send (port : Nat) (message : Message)
  | status (status : Status)
  | error (text : String) (about : Option Message)
  | complete (message : Message)
  | note (entry : Note)
  /-- Signals that the node has closed. A signal that is dropped counts as one of success. -/
  | closed (result : CloseResult)

/-- What a task waits for before it resumes. -/
inductive Wait
  | time (ms : Nat)
  /-- All other tasks of its node. -/
  | others
  deriving DecidableEq, Repr

/-- Work that outlives the hook it comes from. -/
structure Task where
  wait : Wait
  /-- Whether the task is abandoned when its node is told to stop. -/
  abandons : Bool
  /-- What it does then, given whether its node has been told to stop. -/
  resume : Bool → List Effect

/-- What a node sees besides the message it handles. -/
structure Situation where
  setting : Lookup
  /-- The tasks of the node that have not finished. -/
  held : Nat

/-- How the handling of a message ends. -/
inductive Outcome
  | handled
  /-- A task completes the message later. -/
  | deferred
  | failed (fault : NodeFault)

/-- What a node makes of a message: tasks to start, and then effects in order. -/
structure Reaction where
  tasks : List Task
  effects : List Effect
  outcome : Outcome

/-- A message passed on and done with. -/
def Reaction.forward (port : Nat) (m : Message) : Reaction := ⟨[], [.send port m], .handled⟩

def Reaction.fail (fault : NodeFault) : Reaction := ⟨[], [], .failed fault⟩

/-- What a handler that blows up is reported as. -/
def inputPanic : NodeFault := .executionFailed "input handler panicked"

/-- What a node answers when it is asked to close. -/
inductive CloseAnswer
  | signalled (result : CloseResult)
  /-- The signal is left to a task. -/
  | later (task : Task)
  /-- The signal is given once all tasks of the node have finished. -/
  | afterTasks
  | never
  | panicked

/-- The hooks of a node. -/
structure Behaviour where
  type : String
  onStart : List Effect
  onInput : Situation → Message → Reaction
  onRewire : Wires → List Note
  /-- Told whether the node is being deleted. -/
  onClose : Bool → List Note × CloseAnswer

/-- A node that does nothing on its own account but handle messages. -/
def Behaviour.plain (type : String) (onInput : Situation → Message → Reaction) : Behaviour where
  type
  onStart := []
  onInput
  onRewire _ := []
  onClose _ := ([], .signalled (.ok ()))

/-- What comes of making a node from its record. -/
inductive Creation
  | made (behaviour : Behaviour) (notes : List Note)
  | refused (fault : NodeFault)
  /-- The factory blew up, with a text if it left one. -/
  | panicked (text : Option String)

structure PortInfo where
  name : String
  description : String
  deriving DecidableEq, Repr

/-- What a kind of node says of itself. -/
structure Metadata where
  description : String
  category : String
  inputs : List PortInfo
  outputs : List PortInfo
  deriving DecidableEq, Repr

def Metadata.unspecified : Metadata := ⟨"", "general", [], []⟩

/-- A kind of node: how its nodes are made from records whose tokens are resolved. -/
structure Kind where
  metadata : Metadata
  create : Record → Creation

/-- The kinds of nodes that are known, by type. -/
abbrev Registry := Dict Kind

namespace Registry

def register (kinds : Registry) (type : String) (kind : Kind) : Registry := Dict.insert kinds type kind

def types (kinds : Registry) : List String := Dict.keys kinds

def knows (kinds : Registry) (type : String) : Bool := Dict.contains kinds type

def metadata? (kinds : Registry) (type : String) : Option Metadata :=
  (Dict.get? kinds type).map (·.metadata)

/-- Makes a node. A factory that blows up spoils this one node alone. -/
def create (kinds : Registry) (r : Record) : Except NodeFault (Behaviour × List Note) :=
  match Dict.get? kinds r.type with
  | none => .error (.unknownType r.type)
  | some kind =>
    match kind.create r with
    | .made b notes => .ok (b, notes)
    | .refused fault => .error fault
    | .panicked text => .error (.construction (text.getD "factory panicked"))

end Registry

/-- A property that is a text and not empty. -/
def Record.filledText? (r : Record) (key : String) : Option String :=
  match (r.property? key).bind Json.asStr? with
  | some "" => none
  | v => v

def Record.flag (r : Record) (key : String) : Bool :=
  ((r.property? key).bind Json.asBool?).getD false

/-- A value as text: a text as it is, any other value as JSON. -/
def Json.plainText : Json → String
  | .str s => s
  | v => v.text

end Flowgraph
