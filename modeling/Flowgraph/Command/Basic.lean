import Flowgraph.Command.Options
import Flowgraph.Number.Decimal
/-! The commands, and how they are written. -/
namespace Flowgraph

structure RunOptions where
  file : String
  /-- Nodes that are handed a message once the flows have started. -/
  inject : List String
  /-- The payload of these messages, as JSON. -/
  payload : Option String
  settings : Option String
  closeTimeout : Option Nat
  /-- Milliseconds after which the run ends by itself. -/
  duration : Option Nat
  deriving DecidableEq, Repr

inductive Command
  /-- Starts the flows of a file and keeps them running. -/
  | run (options : RunOptions)
  /-- Checks a file for structural defects. -/
  | validate (file : String)
  /-- Shows what a deployment of one file over another would touch. -/
  | diff (old new : String)
  /-- Lists the standard kinds of nodes. -/
  | nodes
  /-- Writes a file of example flows. -/
  | init (output : String)
  deriving DecidableEq, Repr

namespace Command

/-- How commands are written. -/
def usage : List String :=
  ["Usage: flow [-v] COMMAND",
   "",
   "Commands:",
   "  run -f FILE [-i NODE]... [-p JSON] [-s FILE] [--close-timeout-ms MS] [--duration-ms MS]",
   "  validate FILE",
   "  diff OLD NEW",
   "  nodes",
   "  init [-o FILE]"]

/-- The name of a file has at least one character. -/
def fileName (value : String) : Except Refusal String :=
  if value.isEmpty then .error .wrong else .ok value

def fileName? : Option String → Except Refusal (Option String)
  | none => .ok none
  | some value => (fileName value).map some

def milliseconds? : Option String → Except Refusal (Option Nat)
  | none => .ok none
  | some value =>
    match Decimal.unsigned64? value.toList with
    | some ms => .ok (some ms)
    | none => .error .wrong

/-- The operands of a command, which must be as many as it takes. -/
def operands (count : Nat) (w : Words) : Except Refusal (List String) :=
  if w.operands.length = count then w.operands.mapM fileName else .error .wrong

def runSpecs : List OptionSpec :=
  [⟨"file", some 'f', true, false⟩, ⟨"inject", some 'i', true, true⟩,
   ⟨"payload", some 'p', true, false⟩, ⟨"settings", some 's', true, false⟩,
   ⟨"close-timeout-ms", none, true, false⟩, ⟨"duration-ms", none, true, false⟩]

def runOf (words : List String) : Except Refusal Command := do
  let w ← Options.ofWords runSpecs words
  let _ ← operands 0 w
  match ← fileName? (w.value? "file") with
  | none => .error .wrong
  | some file =>
    return .run {
      file
      inject := w.values "inject"
      payload := w.value? "payload"
      settings := ← fileName? (w.value? "settings")
      closeTimeout := ← milliseconds? (w.value? "close-timeout-ms")
      duration := ← milliseconds? (w.value? "duration-ms") }

def validateOf (words : List String) : Except Refusal Command := do
  match ← operands 1 (← Options.ofWords [] words) with
  | [file] => return .validate file
  | _ => .error .wrong

def diffOf (words : List String) : Except Refusal Command := do
  match ← operands 2 (← Options.ofWords [] words) with
  | [old, new] => return .diff old new
  | _ => .error .wrong

def nodesOf (words : List String) : Except Refusal Command := do
  let _ ← operands 0 (← Options.ofWords [] words)
  return .nodes

def initOf (words : List String) : Except Refusal Command := do
  let w ← Options.ofWords [⟨"output", some 'o', true, false⟩] words
  let _ ← operands 0 w
  return .init ((← fileName? (w.value? "output")).getD "flows.json")

def ofNamed : List String → Except Refusal Command
  | "run" :: words => runOf words
  | "validate" :: words => validateOf words
  | "diff" :: words => diffOf words
  | "nodes" :: words => nodesOf words
  | "init" :: words => initOf words
  | "help" :: _ => .error .help
  | _ => .error .wrong

/-- Before the name of a command there may be nothing but the common switch. -/
def ofWords (words : List String) : Except Refusal Command := do
  let switches := words.takeWhile Options.looksLikeOption
  let _ ← Options.ofWords [] switches
  if switches.contains "--" then .error .wrong else ofNamed (words.drop switches.length)

/-- The files a command reads. -/
def inputs : Command → List String
  | .run o => o.settings.toList ++ [o.file]
  | .validate file => [file]
  | .diff old new => [old, new]
  | .nodes | .init _ => []

end Command
end Flowgraph
