import Flowgraph.Command.Basic
import Flowgraph.Config.Deployment
import Flowgraph.Config.Settings
import Flowgraph.Json.Reader
/-! What commands read from files, and what can go wrong with a command. -/
namespace Flowgraph.Command

inductive Failure
  | unreadable (file : String)
  | notJson (file : String)
  | notRecords (file : String)
  | payload
  | config (fault : ConfigFault)
  | flow (fault : FlowFault)
  | injecting (node : NodeId)
  | problems (count : Nat)
  | portOutOfRange
  deriving DecidableEq, Repr

def Failure.message : Failure → String
  | .unreadable file => "reading " ++ file
  | .notJson file => "parsing " ++ file
  | .notRecords file => file ++ ": expected an array of node records"
  | .payload => "payload must be JSON"
  | .config fault => fault.message
  | .flow fault => fault.message
  | .injecting node => "injecting into " ++ node
  | .problems count => Nat.repr count ++ " problem(s) found"
  | .portOutOfRange => "port number out of range"

/-- The texts of files by their names. -/
abbrev Files := String → Option String

def textOf (files : Files) (file : String) : Except Failure String :=
  match files file with
  | some text => .ok text
  | none => .error (.unreadable file)

/-- The records of a file: an array of them, or an object that has one under `flows`. -/
def recordsOf (files : Files) (file : String) : Except Failure (List Json) := do
  match Json.read? (← textOf files file) with
  | none => .error (.notJson file)
  | some v =>
    match v.asArr? <|> (v.field? "flows").bind Json.asArr? with
    | some records => return records
    | none => .error (.notRecords file)

def deploymentOf (files : Files) (file : String) : Except Failure Deployment := do
  (Deployment.parse (← recordsOf files file)).mapError .config

/-- The settings of a file. None of them may stand there twice. -/
def settingsOf (files : Files) : Option String → Except Failure Settings
  | none => .ok .standard
  | some file => do
    let text ← textOf files file
    let settings := do
      let v ← Json.readUnsorted? text
      let names := ((v.asObj?.getD []).map (·.1)).filter Settings.names.contains
      if names.eraseDups.length < names.length then none else Settings.ofJson? v.sorted
    match settings with
    | some s => return s
    | none => .error (.notJson file)

end Flowgraph.Command
