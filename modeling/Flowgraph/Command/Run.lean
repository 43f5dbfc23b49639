import Flowgraph.Command.Files
import Flowgraph.Engine.Clock
import Flowgraph.Kind.Standard
/-! A run of the flows in a file, and what it shows of the events. -/
namespace Flowgraph

/-- The line that shows an event. A node that closes as it should is not shown. -/
def Event.line? : Event → Option String
  | .flowStarted flow active =>
    some ("▶️  Flow " ++ flow ++ " started (" ++ Nat.repr active ++ " nodes)")
  | .flowStopped flow closed timedOut =>
    some ("⏹️  Flow " ++ flow ++ " stopped (" ++ Nat.repr closed ++ " closed, " ++
      Nat.repr timedOut ++ " timed out)")
  | .nodeStatus _ node status => some ("     ℹ️  [" ++ node ++ "] " ++ status.text.getD "")
  | .nodeFailed _ node type fault =>
    some ("  ❌ Node " ++ node ++ " (" ++ type ++ ") failed: " ++ fault.message)
  | .nodeClosed .. => none
  | .nodeCloseTimedOut _ node ms =>
    some ("  ⚠️  Node " ++ node ++ " did not close within " ++ Nat.repr ms ++ "ms")
  | .unhandledError node text => some ("  💥 [" ++ node ++ "] " ++ text)

/-- The lines that tell how a run ended. -/
def StopReport.summary (r : StopReport) : List String :=
  ["", "📊 Stop Summary:", "   Closed: " ++ Nat.repr r.closed.length,
    "   Timed out: " ++ Nat.repr r.timedOut.length] ++
  r.failed.map fun (node, fault) => "   Failed: " ++ node ++ " (" ++ fault.message ++ ")"

/-- A run that has begun. -/
structure Run where
  engine : Engine

namespace Run
open Command

/-- The engine of a run. The time to close counts in whole milliseconds of which the present one has begun,
so a node always has a moment for it. -/
def engineOf (settings : Settings) (processEnv : Dict String) : Engine :=
  { Engine.make .standard .shared settings.env processEnv (max 1 settings.closeTimeout) with
    reader := some ⟨settings.bufferCapacity, [], false⟩ }

/-- Hands a message to each of the nodes in turn, as long as they are active. -/
def injectAll (payload : Json) : List NodeId → Engine → Except Failure Engine
  | [], e => .ok e
  | id :: ids, e =>
    match e.anywhere? id with
    | none => .error (.injecting id)
    | some k =>
      let m := (Message.empty (Message.idText e.nextMessage)).insert "payload" payload
      injectAll payload ids ({ e with nextMessage := e.nextMessage + 1 }.doNow [.hand k m])

def unbroken (e : Engine) : Except Failure Engine :=
  if e.broken then .error .portOutOfRange else .ok e

/-- Reads all files, starts the flows and hands out the messages. Nobody reads an event before that. -/
def start (files : Files) (processEnv : Dict String) (o : RunOptions) (settings : Settings) :
    Except Failure Run := do
  let records ← recordsOf files o.file
  let payload ← match o.payload with
    | none => .ok .null
    | some text => match Json.read? text with
      | some v => .ok v
      | none => .error .payload
  let e := engineOf settings processEnv
  let stages ← (e.stagesOfLoad records).mapError .flow
  let (e, key) := e.complete stages
  match (e.call? key).bind (·.fault) with
  | some fault => .error (.flow fault)
  | none => return ⟨← unbroken (← injectAll payload o.inject (← unbroken e))⟩

def advance (r : Run) (ms : Nat) : Run := ⟨r.engine.advance ms⟩

/-- Stops all flows. -/
def stop (r : Run) : StopReport × Run :=
  let (e, key) := r.engine.complete Engine.stagesOfStopAll
  (((e.call? key).map (·.report)).getD .empty, ⟨e⟩)

/-- The lines of the events that have been read. -/
def lines (r : Run) : List String :=
  match r.engine.reader with
  | some reader => reader.read.filterMap Event.line?
  | none => []

end Run
end Flowgraph
