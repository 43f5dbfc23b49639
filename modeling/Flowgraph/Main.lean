import Flowgraph.Command.Answer
/-! The command line: files and variables come in, lines go out. A run follows the real clock. -/
namespace Flowgraph.CommandLine
open Command

/-- The text of each file that can be read. -/
def readFiles (names : List String) : IO (Dict String) := do
  let texts ← names.mapM fun (name : String) => do
    try pure [(name, ← IO.FS.readFile name)] catch _ => pure []
  return Dict.ofList texts.flatten

/-- The variables of the process, where the system shows them in a file. -/
def processVariables : IO (Dict String) := do
  let bytes ← try IO.FS.readBinFile "/proc/self/environ" catch _ => pure .empty
  let entries := ((String.fromUTF8? bytes).getD "").splitOn (String.singleton (Char.ofNat 0))
  return Dict.ofList <| entries.filterMap fun entry =>
    match Options.cut entry.toList with
    | (name, some value) => some (name, value)
    | _ => none

def showLines (lines : List String) : IO Unit := do
  lines.forM IO.println
  (← IO.getStdout).flush

/-- Writes and shows what a command answers; gives the exit status. -/
def deliver (a : Answer) : IO UInt32 := do
  try
    match a.file with
    | some (name, text) => IO.FS.writeFile name text
    | none => pure ()
    showLines a.lines
    match a.failure with
    | none => return 0
    | some failure => IO.eprintln ("Error: " ++ failure.message); return 1
  catch failure => IO.eprintln ("Error: " ++ toString failure); return 1

/-- Lets a run go on until a moment after its beginning, or for ever, and shows each line when it comes. -/
partial def follow (began : Nat) (moment : Option Nat) (shown : Nat) (r : Run) : IO (Nat × Run) := do
  let lines := r.lines
  showLines (lines.drop shown)
  if moment.any (· ≤ r.engine.now) then return (lines.length, r)
  let passed := (← IO.monoMsNow) - began
  let far := passed + 1000
  let next := min (min (r.engine.nextDue?.getD far) (moment.getD far)) far
  IO.sleep (next - passed).toUInt32
  follow began moment lines.length (r.advance (next - r.engine.now))

def runLive (files : Files) (processEnv : Dict String) (o : RunOptions) : IO UInt32 := do
  match Answer.settingsFor files o with
  | .error failure => deliver ⟨none, [], some failure⟩
  | .ok settings =>
    showLines [Answer.runOpening o]
    match Run.start files processEnv o settings with
    | .error failure => deliver ⟨none, [], some failure⟩
    | .ok r =>
      if o.duration.isNone then showLines [Answer.runWaiting]
      let began ← IO.monoMsNow
      let (shown, r) ← follow began o.duration 0 (r.advance 0)
      let (report, r) := r.stop
      let (_, _) ← follow began (some (r.engine.now + Answer.lastRead)) shown (r.advance 0)
      showLines report.summary
      return 0

def run (words : List String) : IO UInt32 := do
  match Command.ofWords words with
  | .error .help => showLines usage; return 0
  | .error .wrong => usage.forM IO.eprintln; return 2
  | .ok command =>
    let texts ← readFiles command.inputs
    let processEnv ← processVariables
    match command with
    | .run o => runLive texts.get? processEnv o
    | command => deliver (command.perform texts.get? processEnv)

end Flowgraph.CommandLine

def main (words : List String) : IO UInt32 := Flowgraph.CommandLine.run words
