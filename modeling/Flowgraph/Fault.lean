/-! What can go wrong: causes, and one text for each. -/
namespace Flowgraph

/-- What keeps a node from being made, from handling a message or from closing. -/
inductive NodeFault
  | unknownType (type : String)
  | construction (reason : String)
  | configuration (reason : String)
  | executionFailed (reason : String)
  | close (reason : String)
  | closeTimeout (ms : Nat)
  deriving DecidableEq, Repr

def NodeFault.message : NodeFault → String
  | .unknownType t => "Unknown node type: " ++ t
  | .construction r => "Node construction failed: " ++ r
  | .configuration r => "Configuration error: " ++ r
  | .executionFailed r => "Execution failed: " ++ r
  | .close r => "Close failed: " ++ r
  | .closeTimeout ms => "Close timed out after " ++ Nat.repr ms ++ "ms"

/-- What a record lacks. -/
inductive RecordFlaw
  | notAnObject
  | missingId
  | missingType
  | unreadableField
  deriving DecidableEq, Repr

def RecordFlaw.message : RecordFlaw → String
  | .notAnObject => "record is not an object"
  | .missingId => "missing id"
  | .missingType => "missing type"
  | .unreadableField => "a field has a value of the wrong kind"

/-- A structural defect of a configuration. -/
inductive ConfigFault
  | circularDependency (id : String)
  | duplicateId (id : String)
  | malformedRecord (id : String) (flaw : RecordFlaw)
  deriving DecidableEq, Repr

def ConfigFault.message : ConfigFault → String
  | .circularDependency id => "Circular config node dependency detected: " ++ id
  | .duplicateId id => "Duplicate node id: " ++ id
  | .malformedRecord id flaw => "Malformed record '" ++ id ++ "': " ++ flaw.message

/-- Why a call on a flow or on the whole runtime is refused. -/
inductive FlowFault
  | config (fault : ConfigFault)
  | stopping (flow : String)
  | alreadyStarted (flow : String)
  | alreadyDeployed
  | inactive (node : String)
  | inactiveIn (node flow : String)
  deriving DecidableEq, Repr

def FlowFault.message : FlowFault → String
  | .config fault => "Configuration error: " ++ fault.message
  | .stopping flow => "Lifecycle error: Flow " ++ flow ++ " is stopping"
  | .alreadyStarted flow => "Lifecycle error: Flow " ++ flow ++ " is already started"
  | .alreadyDeployed => "Lifecycle error: Runtime already has a deployment; use deploy()"
  | .inactive node => "Lifecycle error: Node " ++ node ++ " is not active"
  | .inactiveIn node flow => "Lifecycle error: Node " ++ node ++ " is not active in flow " ++ flow

end Flowgraph
