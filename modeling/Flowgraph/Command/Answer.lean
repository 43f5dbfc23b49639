import Flowgraph.Command.Run
/-! What comes of a command: the lines it shows, the file it writes, and how it fails. -/
namespace Flowgraph

/-- What a command answers. A file is written first; if that fails, no lines are shown. -/
structure Command.Answer where
  file : Option (String × String)
  lines : List String
  failure : Option Command.Failure
  deriving DecidableEq

namespace Command.Answer

/-- Lines, and then what comes of the rest. -/
def showing (lines : List String) (rest : Except Failure (List String)) : Answer :=
  match rest with
  | .ok more => ⟨none, lines ++ more, none⟩
  | .error failure => ⟨none, lines, some failure⟩

/-! ## Checking -/

/-- The types of which nodes can be made: those of the kinds at hand, and those of the engine itself. -/
def knowsType (kinds : Registry) (type : String) : Bool :=
  kinds.knows type || isReceiverType type || isInternalType type

/-- What is wrong with the structure of a deployment: flow by flow, and then the unknown types. -/
def problems (kinds : Registry) (d : Deployment) : List String :=
  (d.global :: d.tabs).filterMap (fun flow =>
    match StartOrder.validate flow with
    | .ok _ => none
    | .error fault => some ("flow " ++ flow.id ++ ": " ++ fault.message)) ++
  (d.missingTypes (knowsType kinds)).map ("unknown node type: " ++ ·)

def deploymentSummary (d : Deployment) : List String :=
  ["✅ Flows are valid:",
   "   Flows: " ++ Nat.repr d.tabs.length,
   "   Subflow templates: " ++ Nat.repr d.templates.length,
   "   Global config nodes: " ++ Nat.repr d.global.nodes.length,
   "   Nodes: " ++ Nat.repr d.nodes.length]

def ofValidate (files : Files) (file : String) : Answer :=
  let opening := ["🔍 Validating flows: " ++ file]
  match deploymentOf files file with
  | .error failure => ⟨none, opening, some failure⟩
  | .ok d =>
    match problems .standard d with
    | [] => ⟨none, opening ++ deploymentSummary d, none⟩
    | found => ⟨none, opening ++ found.map ("❌ " ++ ·), some (.problems found.length)⟩

/-! ## Comparing -/

/-- A difference as JSON, its fields in their own order. -/
def diffText (d : Diff) : String :=
  (Json.obj (d.fields.map fun (name, ids) => (name, .arr (ids.map .str)))).pretty

def ofDiff (files : Files) (old new : String) : Answer :=
  showing [] do
    let old ← deploymentOf files old
    let new ← deploymentOf files new
    match Diff.between? old new with
    | none => return []
    | some d => return [if d.isEmpty then "No changes" else diffText d]

/-! ## Listing and examples -/

def ofNodes : Answer :=
  ⟨none, ["📦 Available Node Types:", ""] ++ Registry.standard.flatMap fun (type, kind) =>
    ["  • " ++ type ++ " (" ++ kind.metadata.category ++ ")", "    " ++ kind.metadata.description],
    none⟩

/-- A flow that greets: a change, a delay and a debug node, and one that catches errors. -/
def exampleFlows : Json :=
  let placed (id type : String) (x y : Nat) (wires : Json) (more : List (String × Json)) : Json :=
    Json.record ([("id", .str id), ("type", .str type), ("z", .str "main"), ("x", .nat x),
      ("y", .nat y), ("wires", wires)] ++ more)
  let wire (id : String) : Json := .arr [.arr [.str id]]
  .arr [
    Json.record [("id", .str "main"), ("type", .str "tab"), ("label", .str "Example"),
      ("env", .arr [Json.record [("name", .str "GREETING"), ("value", .str "hello"),
        ("type", .str "str")]])],
    placed "greet" "change" 100 100 (wire "wait") [("property", .str "payload"),
      ("value", .str "GREETING"), ("valueType", .str "env")],
    placed "wait" "delay" 300 100 (wire "log") [("delay_ms", .nat 500)],
    placed "log" "debug" 500 100 (.arr []) [],
    placed "errors" "catch" 100 200 (wire "log") []]

def ofInit (output : String) : Answer :=
  ⟨some (output, exampleFlows.pretty),
    ["✨ Created example flows: " ++ output, "", "Run them with:",
      "  flow run --file " ++ output ++ " --inject greet --duration-ms 1000"], none⟩

/-! ## Running -/

def runOpening (o : RunOptions) : String := "🚀 Loading flows from: " ++ o.file

def runWaiting : String := "Running, press Ctrl-C to stop"

/-- Milliseconds after the end in which the last events are read. -/
def lastRead : Nat := 100

def settingsFor (files : Files) (o : RunOptions) : Except Failure Settings :=
  (settingsOf files o.settings).map fun s => { s with closeTimeout := o.closeTimeout.getD s.closeTimeout }

/-- A run from its beginning to its end. One without a duration is stopped as soon as it has begun. -/
def ofRun (files : Files) (processEnv : Dict String) (o : RunOptions) : Answer :=
  match settingsFor files o with
  | .error failure => ⟨none, [], some failure⟩
  | .ok settings =>
    showing [runOpening o] do
      let r ← Run.start files processEnv o settings
      let (report, r) := (r.advance (o.duration.getD 0)).stop
      let waiting := if o.duration.isNone then [runWaiting] else []
      return waiting ++ (r.advance lastRead).lines ++ report.summary

end Answer

/-- The answer of a command, given the files it reads and the variables of the process. -/
def perform (files : Files) (processEnv : Dict String) : Command → Answer
  | .run o => .ofRun files processEnv o
  | .validate file => .ofValidate files file
  | .diff old new => .ofDiff files old new
  | .nodes => .ofNodes
  | .init output => .ofInit output

end Command
end Flowgraph
